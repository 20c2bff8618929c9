import KernelDrivers.Input.Device

namespace KernelDrivers.Input

open Framework Keys

/-- What one packet tells: where the panel is touched, and whether it is pressed. -/
structure Report where
  contacts : List Pos
  pressed : Bool
  deriving DecidableEq

/-- The part of a packet that has been read. -/
structure Packet where
  x : Option Int
  y : Option Int
  contacts : List Pos
  pressed : Option Bool
  btn : Option Bool
  deriving DecidableEq

namespace Packet

def empty : Packet := ⟨none, none, [], none, none⟩

/-- A position that has been read makes a contact. -/
def close (p : Packet) : Packet :=
  match p.x, p.y with
  | some x, some y =>
    { p with x := none, y := none, contacts := p.contacts ++ [⟨x.toNat, y.toNat⟩] }
  | _, _ => p

/-- A packet ends with a pressure, and what it says about `BTN_TOUCH` agrees with it. -/
def report? (p : Packet) : Option Report :=
  p.pressed.bind fun pressed =>
    if p.btn = none ∨ p.btn = some pressed then some ⟨p.close.contacts, pressed⟩ else none

def read (p : Packet) (e : InputEvent) : Option Packet :=
  if e.type = EV_ABS then
    if e.code = ABS_X ∨ e.code = ABS_MT_POSITION_X then some { p with x := some e.value }
    else if e.code = ABS_Y ∨ e.code = ABS_MT_POSITION_Y then some { p with y := some e.value }
    else if e.code = ABS_PRESSURE ∨ e.code = ABS_MT_PRESSURE then
      some { p with pressed := some (e.value != 0) }
    else none
  else if e.type = EV_KEY ∧ e.code = BTN_TOUCH then some { p with btn := some (e.value != 0) }
  else if e = inputMtSync then some p.close
  else none

end Packet

/-- The reports of a stream that begins in the middle of a packet; there are none of a stream
that breaks off in a packet or holds anything else. -/
def decodeFrom : Packet → List InputEvent → Option (List Report)
  | p, [] => if p = .empty then some [] else none
  | p, e :: es =>
    if e = inputSync then
      p.report?.bind fun r => (decodeFrom .empty es).map (r :: ·)
    else (p.read e).bind fun p => decodeFrom p es

def decode (stream : List InputEvent) : Option (List Report) := decodeFrom .empty stream

/-- Which keys are down, how often one has gone down, and what has been reported. -/
structure Pen where
  down : Key → Bool
  presses : Nat
  reports : List Report

/-- Every position goes one step right and down with each press, round the screen. -/
def moved (axis : List Pos) (k : Nat) : List Pos :=
  axis.map fun p => ⟨(p.x + k) % 800, (p.y + k) % 480⟩

def Pen.touch (axis : List Pos) (pen : Pen) (key : Key) : Pen :=
  let down := Function.update pen.down key (!pen.down key)
  if down key then
    ⟨down, pen.presses + 1, pen.reports ++ [⟨moved axis (pen.presses + 1), true⟩]⟩
  else ⟨down, pen.presses, pen.reports ++ [⟨[], false⟩]⟩

def penOf (axis : List Pos) : Machine Pen Key := ⟨⟨fun _ => false, 0, []⟩, Pen.touch axis⟩

/-- A driver encodes a report. -/
def Panel.packet (D : Panel) (r : Report) : List InputEvent :=
  r.contacts.flatMap D.point ++ D.ending (if r.pressed then 1 else 0)

/-- The codes are those of a panel, one that ends its points with `input_mt_sync` or has only
one; and the first positions are on the screen. -/
structure Panel.Readable (D : Panel) : Prop where
  codeX : D.codeX = ABS_X ∨ D.codeX = ABS_MT_POSITION_X
  codeY : D.codeY = ABS_Y ∨ D.codeY = ABS_MT_POSITION_Y
  codePressure : D.codePressure = ABS_PRESSURE ∨ D.codePressure = ABS_MT_PRESSURE
  single : D.mt = false → D.axis.length ≤ 1
  onScreen : ∀ p ∈ D.axis, p.x < 800 ∧ p.y < 480

theorem PanelDriver.readable (d : PanelDriver) : d.panel.Readable := by
  cases d
  all_goals exact ⟨by decide, by decide, by decide, by decide, by decide⟩

section Decode

variable {D : Panel} (h : D.Readable)
include h

theorem read_x (p : Packet) (v : Int) :
    p.read (inputReportAbs D.codeX v) = some { p with x := some v } := by
  rcases h.codeX with hx | hx <;> simp [Packet.read, inputReportAbs, hx]

theorem read_y (p : Packet) (v : Int) :
    p.read (inputReportAbs D.codeY v) = some { p with y := some v } := by
  rcases h.codeY with hy | hy <;>
    simp [Packet.read, inputReportAbs, hy, ABS_X, ABS_Y, ABS_MT_POSITION_X, ABS_MT_POSITION_Y]

theorem read_pressure (p : Packet) (v : Int) :
    p.read (inputReportAbs D.codePressure v) = some { p with pressed := some (v != 0) } := by
  rcases h.codePressure with hp | hp <;>
    simp [Packet.read, inputReportAbs, hp, ABS_X, ABS_Y, ABS_MT_POSITION_X, ABS_MT_POSITION_Y,
      ABS_PRESSURE, ABS_MT_PRESSURE]

omit h in
theorem read_btn (p : Packet) (v : Int) :
    p.read (inputReportKey BTN_TOUCH v) = some { p with btn := some (v != 0) } := by
  by_cases hv : v = 0 <;> simp [Packet.read, inputReportKey, EV_ABS, EV_KEY, hv]

omit h in
theorem decodeFrom_read {p p' : Packet} {e : InputEvent} (he : e ≠ inputSync)
    (hread : p.read e = some p') (rest : List InputEvent) :
    decodeFrom p (e :: rest) = decodeFrom p' rest := by
  rw [decodeFrom, if_neg he, hread]
  rfl

omit h in
theorem inputReportAbs_ne_sync (code : Nat) (v : Int) : inputReportAbs code v ≠ inputSync := by
  simp [inputReportAbs, inputSync, EV_ABS, EV_SYN]

omit h in
theorem inputReportKey_ne_sync (code : Nat) (v : Int) : inputReportKey code v ≠ inputSync := by
  simp [inputReportKey, inputSync, EV_KEY, EV_SYN]

theorem decodeFrom_xy (p : Packet) (q : Pos) (rest : List InputEvent) :
    decodeFrom p (inputReportAbs D.codeX q.x :: inputReportAbs D.codeY q.y :: rest) =
      decodeFrom { p with x := some (q.x : Int), y := some (q.y : Int) } rest := by
  rw [decodeFrom_read (inputReportAbs_ne_sync _ _) (read_x h p q.x),
    decodeFrom_read (inputReportAbs_ne_sync _ _) (read_y h _ q.y)]

/-- A point that ends with `input_mt_sync` is one more contact. -/
theorem decodeFrom_point (hmt : D.mt = true) (p : Packet) (q : Pos) (rest : List InputEvent) :
    decodeFrom p (D.point q ++ rest) =
      decodeFrom { p with x := none, y := none, contacts := p.contacts ++ [q] } rest := by
  have hsync : inputMtSync ≠ inputSync := by decide
  have hread (p : Packet) : p.read inputMtSync = some p.close := by
    simp [Packet.read, inputMtSync, EV_SYN, EV_ABS, EV_KEY]
  have hpoint : D.point q =
      [inputReportAbs D.codeX q.x, inputReportAbs D.codeY q.y, inputMtSync] := by
    simp [Panel.point, hmt]
  rw [hpoint, List.cons_append, List.cons_append, decodeFrom_xy h, List.cons_append,
    decodeFrom_read hsync (hread _)]
  rfl

theorem decodeFrom_contacts (hmt : D.mt = true) (p : Packet) (hx : p.x = none) (hy : p.y = none)
    (cs : List Pos) (rest : List InputEvent) :
    decodeFrom p (cs.flatMap D.point ++ rest) =
      decodeFrom { p with contacts := p.contacts ++ cs } rest := by
  induction cs generalizing p with
  | nil => rw [List.flatMap_nil, List.append_nil, List.nil_append]
  | cons c cs ih =>
    rw [List.flatMap_cons, List.append_assoc, decodeFrom_point h hmt, ih _ rfl rfl]
    simp only [List.append_assoc, List.singleton_append, hx, hy]

theorem decodeFrom_ending (p : Packet) (hbtn : p.btn = none) (v : Int)
    (rest : List InputEvent) :
    decodeFrom p (D.ending v ++ rest) =
      (decode rest).map (⟨p.close.contacts, v != 0⟩ :: ·) := by
  have hsync (q : Packet) (hq : q.close.contacts = p.close.contacts)
      (hbtn : q.btn = none ∨ q.btn = some (v != 0)) (hpressed : q.pressed = some (v != 0)) :
      decodeFrom q (inputSync :: rest) = (decode rest).map (⟨p.close.contacts, v != 0⟩ :: ·) := by
    rw [decodeFrom, if_pos rfl, Packet.report?, hpressed, Option.bind_some, if_pos hbtn, hq]
    rfl
  have hclose (pressed btn : Option Bool) :
      { p with pressed, btn }.close.contacts = p.close.contacts := by
    unfold Packet.close
    cases p.x <;> cases p.y <;> rfl
  rw [Panel.ending, List.cons_append, List.cons_append,
    decodeFrom_read (inputReportAbs_ne_sync _ _) (read_pressure h p v)]
  cases hb : D.btn with
  | true =>
    rw [if_pos rfl, List.singleton_append, List.cons_append,
      decodeFrom_read (inputReportKey_ne_sync _ _) (read_btn _ v), List.singleton_append]
    exact hsync _ (hclose _ _) (Or.inr rfl) rfl
  | false =>
    rw [if_neg Bool.false_ne_true, List.nil_append, List.singleton_append]
    exact hsync _ (hclose _ _) (Or.inl hbtn) rfl

/-- A report in front of a stream is read back. -/
theorem decode_packet (r : Report) (hr : D.mt = false → r.contacts.length ≤ 1)
    (rest : List InputEvent) :
    decode (D.packet r ++ rest) = (decode rest).map (r :: ·) := by
  have hpressed : ((if r.pressed then 1 else 0 : Int) != 0) = r.pressed := by
    cases r.pressed <;> rfl
  rw [Panel.packet, List.append_assoc, decode]
  cases hmt : D.mt with
  | true =>
    rw [decodeFrom_contacts h hmt .empty rfl rfl, decodeFrom_ending h _ rfl, hpressed]
    rfl
  | false =>
    obtain ⟨contacts, pressed⟩ := r
    match contacts, hr hmt with
    | [], _ =>
      rw [List.flatMap_nil, List.nil_append, decodeFrom_ending h .empty rfl, hpressed]
      rfl
    | [q], _ =>
      have hpoint : D.point q = [inputReportAbs D.codeX q.x, inputReportAbs D.codeY q.y] := by
        simp [Panel.point, hmt]
      rw [List.flatMap_singleton, hpoint, List.cons_append, List.cons_append, List.nil_append,
        decodeFrom_xy h, decodeFrom_ending h _ rfl, hpressed]
      rfl

theorem decode_packets (rs : List Report) (hrs : ∀ r ∈ rs, D.mt = false → r.contacts.length ≤ 1) :
    decode (rs.flatMap D.packet) = some rs := by
  induction rs with
  | nil => rfl
  | cons r rs ih =>
    rw [List.flatMap_cons, decode_packet h r (hrs r List.mem_cons_self),
      ih fun q hq => hrs q (List.mem_cons_of_mem _ hq)]
    rfl

end Decode

theorem moved_zero {axis : List Pos} (h : ∀ p ∈ axis, p.x < 800 ∧ p.y < 480) :
    moved axis 0 = axis := by
  rw [moved, List.map_congr_left (g := id), List.map_id]
  intro p hp
  simp [Nat.mod_eq_of_lt (h p hp).1, Nat.mod_eq_of_lt (h p hp).2]

theorem moved_succ (axis : List Pos) (k : Nat) :
    (moved axis k).map Pos.next = moved axis (k + 1) := by
  rw [moved, moved, List.map_map]
  apply List.map_congr_left
  intro p _
  simp [Pos.next, Nat.add_assoc]

structure Follows (D : Panel) (ts : Ts) (pen : Pen) : Prop where
  down : ∀ key, pen.down key = true ↔ ts.cnt key % 2 ≠ 0
  axis : ts.axis = moved D.axis pen.presses
  stream : ts.stream = pen.reports.flatMap D.packet

theorem Follows.event {D : Panel} {ts : Ts} {pen : Pen} (h : Follows D ts pen) (key : Key) :
    Follows D (D.event ts key) (pen.touch D.axis key) := by
  have hnow : (!pen.down key) = true ↔ (ts.cnt key + 1) % 2 ≠ 0 := by
    rw [succ_mod_two_ne_zero, Bool.not_eq_true', ← Bool.not_eq_true, h.down key, not_not]
  have hdown (k : Key) : Function.update pen.down key (!pen.down key) k = true ↔
      Function.update ts.cnt key (ts.cnt key + 1) k % 2 ≠ 0 := by
    by_cases hk : k = key
    · subst hk
      rw [Function.update_self, Function.update_self]
      exact hnow
    · rw [Function.update_of_ne hk, Function.update_of_ne hk]
      exact h.down k
  have hpacket (r : Report) : (pen.reports ++ [r]).flatMap D.packet = ts.stream ++ D.packet r := by
    rw [List.flatMap_append, List.flatMap_singleton, ← h.stream]
  have haxis : ts.axis.map Pos.next = moved D.axis (pen.presses + 1) := by
    rw [h.axis, moved_succ]
  by_cases hpress : (!pen.down key) = true
  · have hodd := hnow.mp hpress
    refine ⟨?_, ?_, ?_⟩
    all_goals simp only [Panel.event, Pen.touch, Function.update_self, if_pos hpress, if_pos hodd]
    · exact hdown
    · exact haxis
    · rw [hpacket, haxis]
      rfl
  · have heven := fun hodd => hpress (hnow.mpr hodd)
    refine ⟨?_, ?_, ?_⟩
    all_goals simp only [Panel.event, Pen.touch, Function.update_self, if_neg hpress, if_neg heven]
    · exact hdown
    · exact h.axis
    · rw [hpacket]
      rfl

theorem run_follows {D : Panel} (h : D.Readable) (keys : List Key) :
    Follows D (D.machine.run keys) ((penOf D.axis).run keys) := by
  induction keys using List.reverseRecOn with
  | nil =>
    refine ⟨fun _ => iff_of_false Bool.false_ne_true ?_, (moved_zero h.onScreen).symm, rfl⟩
    exact not_not.mpr (by decide : (0 : Int32) % 2 = 0)
  | append_singleton keys key ih =>
    rw [Machine.run_concat, Machine.run_concat]
    exact ih.event key

/-- The reports of the pen that falls on the screen, with the contacts of the panel. -/
def Report.Fits (axis : List Pos) (r : Report) : Prop :=
  (r.pressed = true → r.contacts.length = axis.length) ∧ (r.pressed = false → r.contacts = []) ∧
    ∀ p ∈ r.contacts, p.x < 800 ∧ p.y < 480

theorem moved_fits (axis : List Pos) (k : Nat) : Report.Fits axis ⟨moved axis k, true⟩ := by
  refine ⟨fun _ => List.length_map _, nofun, fun p hp => ?_⟩
  obtain ⟨q, -, rfl⟩ := List.mem_map.mp hp
  exact ⟨Nat.mod_lt _ (by decide), Nat.mod_lt _ (by decide)⟩

theorem pen_fits (axis : List Pos) (keys : List Key) :
    ∀ r ∈ ((penOf axis).run keys).reports, r.Fits axis := by
  induction keys using List.reverseRecOn with
  | nil => exact nofun
  | append_singleton keys key ih =>
    rw [Machine.run_concat]
    simp only [penOf, Pen.touch]
    split
    all_goals
      intro r hr
      rcases List.mem_append.mp hr with hr | hr
    · exact ih r hr
    · exact List.mem_singleton.mp hr ▸ moved_fits axis _
    · exact ih r hr
    · exact List.mem_singleton.mp hr ▸ ⟨nofun, fun _ => rfl, nofun⟩

/-- The event is one that the driver has told the input core of, within the limits it has
given. -/
def Panel.Declares (D : Panel) (e : InputEvent) : Prop :=
  e = inputSync ∨ e = inputMtSync ∨
    (e.type ∈ D.evbit ∧ (e.type = EV_ABS → e.code ∈ D.absbit) ∧
      (e.type = EV_KEY → e.code ∈ D.keybit) ∧
      ∀ a ∈ D.absParams, e.type = EV_ABS → e.code = a.1 → a.2.1 ≤ e.value ∧ e.value ≤ a.2.2)

/-- What a driver must have declared for its packets to be declared. -/
structure Panel.Declared (D : Panel) : Prop where
  abs : EV_ABS ∈ D.evbit
  x : D.codeX ∈ D.absbit
  y : D.codeY ∈ D.absbit
  pressure : D.codePressure ∈ D.absbit
  btn : D.btn = true → EV_KEY ∈ D.evbit ∧ BTN_TOUCH ∈ D.keybit
  limitsX : ∀ a ∈ D.absParams, D.codeX = a.1 → a.2.1 ≤ 0 ∧ 799 ≤ a.2.2
  limitsY : ∀ a ∈ D.absParams, D.codeY = a.1 → a.2.1 ≤ 0 ∧ 479 ≤ a.2.2
  limitsPressure : ∀ a ∈ D.absParams, D.codePressure = a.1 → a.2.1 ≤ 0 ∧ 1 ≤ a.2.2

theorem PanelDriver.declared (d : PanelDriver) : d.panel.Declared := by
  cases d
  all_goals
    exact ⟨by decide, by decide, by decide, by decide, by decide, by decide, by decide, by decide⟩

section Declares

variable {D : Panel} (h : D.Declared)
include h

theorem declares_abs {code : Nat} {v bound : Int} (hcode : code ∈ D.absbit)
    (hlimits : ∀ a ∈ D.absParams, code = a.1 → a.2.1 ≤ 0 ∧ bound ≤ a.2.2) (h0 : 0 ≤ v)
    (hv : v ≤ bound) : D.Declares (inputReportAbs code v) := by
  refine Or.inr (Or.inr ⟨h.abs, fun _ => hcode, nofun, ?_⟩)
  intro a ha _ heq
  obtain ⟨hmin, hmax⟩ := hlimits a ha heq
  exact ⟨hmin.trans h0, hv.trans hmax⟩

theorem declares_point {p : Pos} (hx : p.x < 800) (hy : p.y < 480) :
    ∀ e ∈ D.point p, D.Declares e := by
  intro e he
  simp only [Panel.point, List.cons_append, List.nil_append, List.mem_cons] at he
  rcases he with rfl | rfl | he
  · exact declares_abs h h.x h.limitsX (by omega) (by omega)
  · exact declares_abs h h.y h.limitsY (by omega) (by omega)
  · split at he
    · exact Or.inr (Or.inl (List.mem_singleton.mp he))
    · cases he

theorem declares_ending (b : Bool) : ∀ e ∈ D.ending (if b then 1 else 0), D.Declares e := by
  have hrange : (0 : Int) ≤ (if b then 1 else 0) ∧ (if b then 1 else 0) ≤ (1 : Int) := by
    cases b <;> decide
  intro e he
  simp only [Panel.ending, List.cons_append, List.mem_cons, List.mem_append] at he
  rcases he with rfl | he | rfl | he
  · exact declares_abs h h.pressure h.limitsPressure hrange.1 hrange.2
  · split at he
    · rename_i hbtn
      obtain rfl := List.mem_singleton.mp he
      obtain ⟨hkey, hcode⟩ := h.btn hbtn
      exact Or.inr (Or.inr ⟨hkey, nofun, fun _ => hcode, nofun⟩)
    · cases he
  · exact Or.inl rfl
  · cases he

theorem declares_packet {r : Report} (hr : ∀ p ∈ r.contacts, p.x < 800 ∧ p.y < 480) :
    ∀ e ∈ D.packet r, D.Declares e := by
  intro e he
  rcases List.mem_append.mp he with he | he
  · obtain ⟨p, hp, hep⟩ := List.mem_flatMap.mp he
    exact declares_point h (hr p hp).1 (hr p hp).2 e hep
  · exact declares_ending h r.pressed e he

end Declares

/-- Whatever keys are handled, what a driver that plays a touch panel has reported reads back as
the reports of the pen: with each press every contact stands one step further round the screen,
and a release takes all contacts away. Nothing is reported that has not been declared. -/
theorem panel_follows_pen (d : PanelDriver) (keys : List Key) :
    decode (d.panel.machine.run keys).stream = some ((penOf d.panel.axis).run keys).reports ∧
      (∀ r ∈ ((penOf d.panel.axis).run keys).reports, r.Fits d.panel.axis) ∧
      ∀ e ∈ (d.panel.machine.run keys).stream, d.panel.Declares e := by
  have hfits := pen_fits d.panel.axis keys
  have hstream := (run_follows d.readable keys).stream
  refine ⟨?_, hfits, ?_⟩
  · rw [hstream]
    apply decode_packets d.readable
    intro r hr hmt
    obtain ⟨hpressed, hreleased, -⟩ := hfits r hr
    cases hp : r.pressed with
    | true =>
      rw [hpressed hp]
      exact d.readable.single hmt
    | false =>
      rw [hreleased hp]
      exact Nat.zero_le _
  · rw [hstream]
    intro e he
    obtain ⟨r, hr, her⟩ := List.mem_flatMap.mp he
    exact declares_packet d.declared (hfits r hr).2.2 e her

end KernelDrivers.Input
