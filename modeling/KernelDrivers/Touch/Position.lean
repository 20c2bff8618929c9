import KernelDrivers.Framework.Machine
import KernelDrivers.Touch.Device

namespace KernelDrivers.Touch

open Framework Kernel

/-- A complete read whose event flag is `k`. -/
structure Report (k : Nat) where
  regval : Regval
  flagged : flag regval = k

/-- A finger that is put down, moved any number of times and lifted. -/
structure Gesture where
  down : Report 0
  contacts : List (Report 2)
  up : Report 1

def Gesture.reports (t : Gesture) : List Regval :=
  t.down.regval :: t.contacts.map Report.regval ++ [t.up.regval]

def coordX (regval : Regval) : Nat :=
  256 * ((regval ⟨3, by decide⟩).toNat &&& 15) + (regval ⟨4, by decide⟩).toNat

def coordY (regval : Regval) : Nat :=
  256 * ((regval ⟨5, by decide⟩).toNat &&& 15) + (regval ⟨6, by decide⟩).toNat

/-- What a reader of the input device has seen last of each code; there is none of a code that
has never been reported. -/
structure Shown where
  absX : Option Nat
  absY : Option Nat
  absPressure : Option Nat
  btnTouch : Option Nat

def Shown.see (s : Shown) : InputEvent → Shown
  | .absX value => { s with absX := some value }
  | .absY value => { s with absY := some value }
  | .absPressure value => { s with absPressure := some value }
  | .btnTouch value => { s with btnTouch := some value }
  | .synReport => s

def shown (ts : Ts) : Shown := ts.events.foldl Shown.see ⟨none, none, none, none⟩

def Shown.position (s : Shown) : Option Nat × Option Nat := (s.absX, s.absY)

def coords (regval : Regval) : Option Nat × Option Nat :=
  (some (coordX regval), some (coordY regval))

/-- `do_ft5206_bh` run to its end on a complete read of the registers. -/
def runBh (D : Driver) (ts : Ts) (regval : Regval) : Ts :=
  (doFt5206Bh D ⟨31, regval⟩).foldl (fun ts c => exec c ts) ts

/-- One report after another. -/
def bhMachine (D : Driver) : Machine Ts Regval := ⟨.fresh .probed, runBh D⟩

/-- What is shown is what the report `regval` says: the finger is at its coordinates, or lifted. -/
def Current (s : Shown) (regval : Regval) : Prop :=
  if flag regval = 1 then s.absPressure = some 0 ∧ s.btnTouch = some 0
  else s.position = coords regval ∧ s.absPressure = some 1 ∧ s.btnTouch = some 1

/-- The driver brings what is shown up to date with the report. -/
def Updates (D : Driver) (ts : Ts) (regval : Regval) : Prop :=
  Current (shown (runBh D ts regval)) regval

instance (D : Driver) (ts : Ts) (regval : Regval) : Decidable (Updates D ts regval) := by
  unfold Updates Current
  infer_instance

/-- The finger stays where it was put down. -/
def Gesture.Still (t : Gesture) : Prop := ∀ c ∈ t.contacts, coords c.regval = coords t.down.regval

/-- The position after a number of moves. -/
def lastPosition (start : Option Nat × Option Nat) : List (Report 2) → Option Nat × Option Nat
  | [] => start
  | c :: cs => lastPosition (coords c.regval) cs

/-- Every finger is put down at the position of the last move before. -/
def Resumed (start : Option Nat × Option Nat) : List Gesture → Prop
  | [] => True
  | t :: touches => coords t.down.regval = start ∧ Resumed (lastPosition start t.contacts) touches

theorem xPos_eq (regval : Regval) : xPos regval = coordX regval := by
  have hlow : (regval 4).toNat < 2 ^ 8 := UInt8.toNat_lt (regval 4)
  rw [xPos, ← Nat.shiftLeft_add_eq_or_of_lt hlow, Nat.shiftLeft_eq, coordX, Nat.mul_comm]
  rfl

theorem yPos_eq (regval : Regval) : yPos regval = coordY regval := by
  have hlow : (regval 6).toNat < 2 ^ 8 := UInt8.toNat_lt (regval 6)
  rw [yPos, ← Nat.shiftLeft_add_eq_or_of_lt hlow, Nat.shiftLeft_eq, coordY, Nat.mul_comm]
  rfl

theorem events_exec (cs : List Stmt) (ts : Ts) :
    (cs.foldl (fun ts c => exec c ts) ts).events = ts.events ++ cs.flatMap reported := by
  induction cs generalizing ts with
  | nil => simp
  | cons c cs ih =>
    have hc : (exec c ts).events = ts.events ++ reported c := rfl
    rw [List.foldl_cons, ih, hc, List.flatMap_cons, List.append_assoc]

/-- A run of the bottom half shows what the driver reports about the registers. -/
theorem shown_runBh (D : Driver) (ts : Ts) (regval : Regval) :
    shown (runBh D ts regval) = (D.reports regval).foldl Shown.see (shown ts) := by
  have hreports : ((D.reports regval).map Stmt.inputReport).flatMap reported =
      D.reports regval := by
    rw [List.flatMap_map]
    exact List.flatMap_singleton' _
  have hevents : (runBh D ts regval).events = ts.events ++ (D.reports regval ++ [.synReport]) := by
    rw [runBh, events_exec]
    simp [doFt5206Bh, reported, hreports]
  rw [shown, hevents, List.foldl_append, List.foldl_append]
  rfl

section KernelCodeV1

variable (ts : Ts)

theorem v1_down (d : Report 0) :
    shown (runBh kernelCodeV1 ts d.regval) =
      ⟨some (coordX d.regval), some (coordY d.regval), some 1, some 1⟩ := by
  simp [shown_runBh, kernelCodeV1, d.flagged, Shown.see, xPos_eq, yPos_eq]

/-- A move is not reported at all. -/
theorem v1_contact (c : Report 2) : shown (runBh kernelCodeV1 ts c.regval) = shown ts := by
  simp [shown_runBh, kernelCodeV1, c.flagged]

theorem v1_up (u : Report 1) :
    shown (runBh kernelCodeV1 ts u.regval) =
      { shown ts with absPressure := some 0, btnTouch := some 0 } := by
  simp [shown_runBh, kernelCodeV1, u.flagged, Shown.see]

end KernelCodeV1

section Laomits

variable (ts : Ts)

/-- A finger that is put down is reported without its position. -/
theorem laomits_down (d : Report 0) :
    shown (runBh laomits ts d.regval) =
      { shown ts with absPressure := some 1, btnTouch := some 1 } := by
  simp [shown_runBh, laomits, d.flagged, Shown.see]

theorem laomits_contact (c : Report 2) :
    shown (runBh laomits ts c.regval) =
      { shown ts with absX := some (coordX c.regval), absY := some (coordY c.regval) } := by
  simp [shown_runBh, laomits, c.flagged, Shown.see, xPos_eq, yPos_eq]

theorem laomits_up (u : Report 1) :
    shown (runBh laomits ts u.regval) =
      { shown ts with absPressure := some 0, btnTouch := some 0 } := by
  simp [shown_runBh, laomits, u.flagged, Shown.see]

end Laomits

/-- The first driver keeps what it shows up to date in a touch that stays where it began. -/
theorem v1_touch (ts : Ts) (t : Gesture) :
    (bhMachine kernelCodeV1).MeetsFrom (Updates kernelCodeV1) ts t.reports ↔ t.Still := by
  have hcontacts (cs : List (Report 2)) (ts : Ts)
      (h : shown ts = ⟨some (coordX t.down.regval), some (coordY t.down.regval), some 1, some 1⟩) :
      (bhMachine kernelCodeV1).MeetsFrom (Updates kernelCodeV1) ts (cs.map Report.regval) ↔
        ∀ c ∈ cs, coords c.regval = coords t.down.regval := by
    induction cs generalizing ts with
    | nil => simp [Machine.MeetsFrom]
    | cons c cs ih =>
      have hsame := v1_contact ts c
      have hc : Updates kernelCodeV1 ts c.regval ↔ coords c.regval = coords t.down.regval := by
        simp [Updates, Current, c.flagged, hsame, h, Shown.position, coords, eq_comm]
      rw [List.map_cons, Machine.MeetsFrom, hc, List.forall_mem_cons]
      apply and_congr_right
      intro _
      exact ih _ (hsame.trans h)
  have hdown : Updates kernelCodeV1 ts t.down.regval := by
    simp [Updates, Current, t.down.flagged, v1_down, Shown.position, coords]
  have hup (ts : Ts) : Updates kernelCodeV1 ts t.up.regval := by
    simp [Updates, Current, t.up.flagged, v1_up]
  rw [Gesture.reports, List.cons_append, Machine.MeetsFrom, Machine.meetsFrom_concat,
    and_iff_right hdown, and_iff_left (hup _)]
  exact hcontacts t.contacts _ (v1_down ts t.down)

theorem laomits_contacts (cs : List (Report 2)) (ts : Ts) :
    let last := (bhMachine laomits).runFrom ts (cs.map Report.regval)
    (shown last).position = lastPosition (shown ts).position cs ∧
      (shown last).absPressure = (shown ts).absPressure ∧
      (shown last).btnTouch = (shown ts).btnTouch ∧
      ((shown ts).absPressure = some 1 → (shown ts).btnTouch = some 1 →
        (bhMachine laomits).MeetsFrom (Updates laomits) ts (cs.map Report.regval)) := by
  induction cs generalizing ts with
  | nil => exact ⟨rfl, rfl, rfl, fun _ _ => trivial⟩
  | cons c cs ih =>
    obtain ⟨hpos, hpress, hbtn, hmeets⟩ := ih (runBh laomits ts c.regval)
    rw [laomits_contact] at hpos hpress hbtn hmeets
    refine ⟨hpos, hpress, hbtn, fun hp hb => ⟨?_, hmeets hp hb⟩⟩
    simp [Updates, Current, c.flagged, laomits_contact, hp, hb, Shown.position, coords]

/-- The second driver keeps what it shows up to date in a touch that begins at the position
shown before. -/
theorem laomits_touch (ts : Ts) (t : Gesture) :
    ((bhMachine laomits).MeetsFrom (Updates laomits) ts t.reports ↔
      coords t.down.regval = (shown ts).position) ∧
    (shown ((bhMachine laomits).runFrom ts t.reports)).position =
      lastPosition (shown ts).position t.contacts := by
  have hshown := laomits_down ts t.down
  have hdown : Updates laomits ts t.down.regval ↔ coords t.down.regval = (shown ts).position := by
    simp [Updates, Current, t.down.flagged, hshown, Shown.position, coords, eq_comm]
  have hup (ts : Ts) : Updates laomits ts t.up.regval := by
    simp [Updates, Current, t.up.flagged, laomits_up]
  obtain ⟨hpos, -, -, hmeets⟩ := laomits_contacts t.contacts (runBh laomits ts t.down.regval)
  rw [hshown] at hpos hmeets
  constructor
  · rw [Gesture.reports, List.cons_append, Machine.MeetsFrom, Machine.meetsFrom_concat, hdown,
      and_iff_left (hup _)]
    exact and_iff_left (hmeets rfl rfl)
  · rw [Gesture.reports, List.cons_append, Machine.runFrom_cons, Machine.runFrom_append]
    show (shown (runBh laomits _ t.up.regval)).position = _
    rw [laomits_up]
    exact hpos

/-- The position shown is the current one after every report of a sequence of touches exactly when
no finger moves for kernel_code_v1/ts, and for laomits when every finger is put down where the
last move before it ended. -/
theorem position_current_iff (ts : Ts) (touches : List Gesture) :
    ((bhMachine kernelCodeV1).MeetsFrom (Updates kernelCodeV1) ts
        (touches.flatMap Gesture.reports) ↔
      ∀ t ∈ touches, t.Still) ∧
    ((bhMachine laomits).MeetsFrom (Updates laomits) ts (touches.flatMap Gesture.reports) ↔
      Resumed (shown ts).position touches) := by
  induction touches generalizing ts with
  | nil => simp [Machine.MeetsFrom, Resumed]
  | cons t touches ih =>
    rw [List.flatMap_cons, Machine.meetsFrom_append, Machine.meetsFrom_append, List.forall_mem_cons,
      Resumed]
    constructor
    · rw [v1_touch, (ih _).1]
    · obtain ⟨hmeets, hpos⟩ := laomits_touch ts t
      rw [hmeets, (ih _).2, hpos]

/-- A finger put down at (0, 0), moved to (5, 0) and lifted there. -/
def slide : Gesture where
  down := ⟨fun _ => 0, rfl⟩
  contacts := [⟨fun i => if i.val = 3 then 0x80 else if i.val = 4 then 5 else 0, rfl⟩]
  up := ⟨fun i => if i.val = 3 then 0x40 else if i.val = 4 then 5 else 0, rfl⟩

/-- Both drivers show a wrong position, the first one after the move and the second one before. -/
theorem slide_shows_stale_position :
    ¬ (bhMachine kernelCodeV1).Meets (Updates kernelCodeV1) slide.reports ∧
      ¬ (bhMachine laomits).Meets (Updates laomits) slide.reports := by
  constructor
  · decide
  · decide

end KernelDrivers.Touch
