import KernelDrivers.Leds.Device

namespace KernelDrivers.Leds

open Framework Kernel Register

/-- One of the four LEDs is to be lit, or not. -/
structure Command where
  lamp : Fin 4
  on : Bool

/-- Which LEDs are lit. -/
abbrev Lit := Fin 4 → Bool

def Command.apply (lit : Lit) (c : Command) : Lit := Function.update lit c.lamp c.on

/-- An LED is lit by a zero. -/
def Shows (dat : BitVec 32) (lit : Lit) : Prop := ∀ i : Fin 4, dat.getLsbD i = !lit i

/-- What a command does to the port. -/
def Board.command (b : Board) (c : Command) : Board :=
  b.set .gpm4dat (assign b.dat c.lamp (!c.on))

/-- The LED that is numbered `num` from one on. -/
def lampOf (num : Nat) : Fin 4 := ⟨(num - 1) % 4, Nat.mod_lt _ (Nat.succ_pos 3)⟩

/-- The command of a request for the LED `num`; there is none when one of its values is not
valid. -/
def Command.of? (on : Option Bool) (num : Int) : Option Command :=
  if 1 ≤ num ∧ num ≤ 4 then on.map fun on => ⟨lampOf num.toNat, on⟩ else none

def Miscled.on? (cmd : Byte) : Option Bool :=
  if cmd = LEDON then some true else if cmd = LEDOFF then some false else none

def KernelCodeV1.on? (ledcmd : Int32) : Option Bool :=
  if ledcmd = 1 then some true else if ledcmd = 0 then some false else none

/-- The command a request to miscled amounts to. -/
def Miscled.command? (w : Write) : Option Command :=
  if w.buf.length = 2 ∧ w.fate.residue 2 = 0 then
    Command.of? (on? (w.buf.getD 0 0)) (w.buf.getD 1 0).toNat
  else none

/-- The command a request to kernel_code_v1/leds amounts to. -/
def KernelCodeV1.command? (w : Write) : Option Command :=
  if w.buf.length = 8 ∧ w.fate.residue 8 = 0 then
    Command.of? (on? (LedCtl.ofBytes w.buf).ledcmd) (LedCtl.ofBytes w.buf).lednum.toInt
  else none

/-- A request carries out its command, or is refused and leaves the port alone. -/
def Serves (size : Int) (write : Board → Write → Option (Int × Board))
    (command? : Write → Option Command) : Prop :=
  ∀ (b : Board) (w : Write), b.mapped = true →
    (∃ c, command? w = some c ∧ write b w = some (size, b.command c)) ∨
    (command? w = none ∧ ∃ ret, ret < 0 ∧ write b w = some (ret, b))

theorem Command.of?_eq_some {on : Option Bool} {num : Int} {c : Command}
    (h : Command.of? on num = some c) :
    on = some c.on ∧ 1 ≤ num ∧ num ≤ 4 ∧ (c.lamp : Nat) = num.toNat - 1 := by
  unfold Command.of? at h
  by_cases hnum : 1 ≤ num ∧ num ≤ 4
  · rw [if_pos hnum, Option.map_eq_some_iff] at h
    obtain ⟨lit, hon, rfl⟩ := h
    refine ⟨hon, hnum.1, hnum.2, ?_⟩
    show (num.toNat - 1) % 4 = num.toNat - 1
    omega
  · rw [if_neg hnum] at h
    cases h

theorem Command.of?_eq_none {on : Option Bool} {num : Int} (h : Command.of? on num = none) :
    on = none ∨ num < 1 ∨ 4 < num := by
  unfold Command.of? at h
  by_cases hnum : 1 ≤ num ∧ num ≤ 4
  · rw [if_pos hnum, Option.map_eq_none_iff] at h
    exact Or.inl h
  · omega

namespace Miscled

/-- The command byte that brings an LED into a state. -/
def cmdOf (on : Bool) : Byte := if on then LEDON else LEDOFF

theorem on?_eq_some {cmd : Byte} {on : Bool} (h : on? cmd = some on) : cmd = cmdOf on := by
  unfold on? at h
  by_cases h1 : cmd = LEDON
  · rw [if_pos h1, Option.some_inj] at h
    rw [← h]
    exact h1
  · rw [if_neg h1] at h
    by_cases h2 : cmd = LEDOFF
    · rw [if_pos h2, Option.some_inj] at h
      rw [← h]
      exact h2
    · rw [if_neg h2] at h
      cases h

theorem on?_eq_none {cmd : Byte} (h : on? cmd = none) : cmd ≠ LEDON ∧ cmd ≠ LEDOFF := by
  have hne : LEDOFF ≠ LEDON := by decide
  constructor
  · intro hcmd
    simp [on?, hcmd] at h
  · intro hcmd
    simp [on?, hcmd, hne] at h

/-- The bytes of a request that has passed the checks are those of its command. -/
structure Checked.Encodes (c : Checked) (command : Command) : Prop where
  cmd : c.cmd = cmdOf command.on
  num : c.num.toNat = command.lamp + 1

theorem checkKbuf_cases (cmd num : Byte) :
    (∃ c command, checkKbuf cmd num = .ok c ∧ Command.of? (on? cmd) num.toNat = some command ∧
      c.Encodes command) ∨
    (Command.of? (on? cmd) num.toNat = none ∧ checkKbuf cmd num = .error (-einval)) := by
  have hlt : num < 1 ∨ 4 < num ↔ num.toNat < 1 ∨ 4 < num.toNat := by
    rw [UInt8.lt_iff_toNat_lt, UInt8.lt_iff_toNat_lt]
    exact Iff.rfl
  unfold checkKbuf
  cases hc : Command.of? (on? cmd) num.toNat with
  | some command =>
    obtain ⟨hon, hlo, hhi, hlamp⟩ := Command.of?_eq_some hc
    have hcmd := on?_eq_some hon
    have isCmd : ¬ (cmd ≠ LEDON ∧ cmd ≠ LEDOFF) := by
      rw [hcmd]
      cases command.on <;> decide
    have isNum : ¬ (num < 1 ∨ 4 < num) := by
      rw [hlt]
      omega
    left
    rw [dif_neg isCmd, dif_neg isNum]
    exact ⟨⟨cmd, num, isCmd, isNum⟩, command, rfl, rfl, hcmd, by simp only; omega⟩
  | none =>
    refine Or.inr ⟨rfl, ?_⟩
    by_cases hvalid : cmd ≠ LEDON ∧ cmd ≠ LEDOFF
    · rw [dif_pos hvalid]
    · have hrange : num < 1 ∨ 4 < num := by
        rw [hlt]
        rcases Command.of?_eq_none hc with hon | hnum
        · exact absurd (on?_eq_none hon) hvalid
        · omega
      rw [dif_neg hvalid, dif_pos hrange]

/-- The checks of `demo_write` let through what is a command. -/
theorem checkWrite_cases (w : Write) :
    (∃ c command, checkWrite w = .ok c ∧ command? w = some command ∧ c.Encodes command) ∨
      (command? w = none ∧ ∃ ret, ret < 0 ∧ checkWrite w = .error ret) := by
  unfold checkWrite command?
  by_cases hlen : w.buf.length = 2
  · by_cases hres : w.fate.residue 2 = 0
    · have hlanded : w.fate.landed w.buf = w.buf := CopyFate.landed_of_residue (by rw [hlen, hres])
      rw [if_neg (not_not.mpr hlen), if_neg (not_not.mpr hres), if_pos ⟨hlen, hres⟩, hlanded]
      rcases checkKbuf_cases (w.buf.getD 0 0) (w.buf.getD 1 0) with hok | ⟨hnone, herr⟩
      · exact Or.inl hok
      · exact Or.inr ⟨hnone, _, by decide, herr⟩
    · right
      rw [if_neg (not_not.mpr hlen), if_pos hres, if_neg (fun h => hres h.2)]
      exact ⟨rfl, _, by decide, rfl⟩
  · right
    rw [if_pos hlen, if_neg (fun h => hlen h.1)]
    exact ⟨rfl, _, by decide, rfl⟩

/-- `ledonoff` sets or clears one bit of what it has read. -/
theorem updateTmp_eq {c : Checked} {command : Command} (h : c.Encodes command) (tmp : BitVec 8) :
    updateTmp c.cmd c.num tmp = assign tmp command.lamp (!command.on) := by
  have hlow : c.num.toNat - 1 = command.lamp := by
    have := h.num
    omega
  have hpromoted (on : Bool) : (assign (tmp.setWidth 32) command.lamp on).setWidth 8 =
      assign tmp command.lamp on := low_assign_promoted tmp (by omega) (by decide) on
  simp only [updateTmp, hlow, ← assign_false, ← assign_true, hpromoted]
  cases hon : command.on with
  | true =>
    have hcmd : c.cmd = LEDON := by rw [h.cmd, hon]; rfl
    rw [if_pos hcmd, Bool.not_true]
  | false =>
    have hcmd : c.cmd ≠ LEDON := by rw [h.cmd, hon]; decide
    rw [if_neg hcmd, Bool.not_false]

/-- The 8-bit read-modify-write sets one bit of the 32-bit register. -/
theorem ledonoff_eq {b : Board} (hm : b.mapped = true) {c : Checked} {command : Command}
    (h : c.Encodes command) : ledonoff b c.cmd c.num = some (b.command command) := by
  have hwide : putLow (assign (low 8 b.dat) command.lamp (!command.on)) b.dat =
      assign b.dat command.lamp (!command.on) := putLow_assign_low b.dat (by omega) (by decide) _
  simp only [ledonoff, Board.ioread8, Board.ioread32, Board.iowrite8, Board.iowrite32, hm,
    if_true, Option.map_some, Option.bind_eq_bind, Option.bind_some, Board.get, updateTmp_eq h,
    hwide]
  rfl

theorem serves : Serves 2 demoWrite command? := by
  intro b w hm
  unfold demoWrite
  rcases checkWrite_cases w with ⟨c, command, hok, hc, henc⟩ | ⟨hc, ret, hneg, herr⟩
  · refine Or.inl ⟨command, hc, ?_⟩
    simp only [hok, ledonoff_eq hm henc, Option.map_some]
  · rw [herr]
    exact Or.inr ⟨hc, ret, hneg, rfl⟩

end Miscled

theorem KernelCodeV1.ledCtr_eq {b : Board} (hm : b.mapped = true) (lednum ledcmd : Int32) :
    ledCtr b lednum ledcmd =
      match Command.of? (on? ledcmd) lednum.toInt with
      | some c => some (0, b.command c)
      | none => some (-einval, b) := by
  have h1 : (1 : Int32).toInt = 1 := rfl
  have h4 : (4 : Int32).toInt = 4 := rfl
  simp only [ledCtr, Board.ioread32, Board.iowrite32, hm, if_true, Option.bind_eq_bind,
    Option.bind_some, Board.get, ← assign_false, ← assign_true, Int32.lt_iff_toInt_lt, h1, h4]
  cases hc : Command.of? (on? ledcmd) lednum.toInt with
  | some c =>
    obtain ⟨hon, hlo, hhi, hlamp⟩ := Command.of?_eq_some hc
    have hrange : ¬ (lednum.toInt < 1 ∨ 4 < lednum.toInt) := by omega
    have hbit : (c.lamp : Nat) = (lednum.toInt - 1).toNat := by omega
    show _ = some (0, b.command c)
    rw [if_neg hrange, ← hbit]
    unfold on? at hon
    by_cases hcmd : ledcmd = 1
    · rw [if_pos hcmd, Option.some_inj] at hon
      rw [if_pos hcmd, Board.command, ← hon]
      rfl
    · rw [if_neg hcmd] at hon
      by_cases hoff : ledcmd = 0
      · rw [if_pos hoff, Option.some_inj] at hon
        rw [if_neg hcmd, if_pos hoff, Board.command, ← hon]
        rfl
      · rw [if_neg hoff] at hon
        cases hon
  | none =>
    by_cases hrange : lednum.toInt < 1 ∨ 4 < lednum.toInt
    · rw [if_pos hrange]
      rfl
    · have hcmd : on? ledcmd = none := (Command.of?_eq_none hc).resolve_right hrange
      have hon : ledcmd ≠ 1 := by
        intro h
        simp [on?, h] at hcmd
      have hoff : ledcmd ≠ 0 := by
        intro h
        simp [on?, h] at hcmd
      rw [if_neg hrange, if_neg hon, if_neg hoff]
      rfl

theorem KernelCodeV1.serves : Serves 8 demoWrite command? := by
  intro b w hm
  unfold demoWrite command?
  by_cases hlen : w.buf.length = 8
  · by_cases hres : w.fate.residue 8 = 0
    · have hlanded : w.fate.landed w.buf = w.buf := CopyFate.landed_of_residue (by rw [hlen, hres])
      rw [if_neg (not_not.mpr hlen), if_neg (not_not.mpr hres), if_pos ⟨hlen, hres⟩]
      simp only [hlanded, ledCtr_eq hm]
      cases Command.of? (on? (LedCtl.ofBytes w.buf).ledcmd) (LedCtl.ofBytes w.buf).lednum.toInt with
      | some c => exact Or.inl ⟨c, rfl, rfl⟩
      | none => exact Or.inr ⟨rfl, -einval, by decide, rfl⟩
    · right
      rw [if_neg (not_not.mpr hlen), if_pos hres, if_neg (fun h => hres h.2)]
      exact ⟨rfl, _, by decide, rfl⟩
  · right
    rw [if_pos hlen, if_neg (fun h => hlen h.1)]
    exact ⟨rfl, _, by decide, rfl⟩

/-- The numbers of a translated request agree, or neither of them names an LED. -/
def SameNum (num : Byte) (lednum : Int32) : Prop :=
  lednum.toInt = num.toNat ∨
    ((num < 1 ∨ 4 < num) ∧ (lednum < 1 ∨ 4 < lednum))

/-- The commands of a translated request agree, or neither of them is one. -/
def SameCmd (cmd : Byte) (ledcmd : Int32) : Prop :=
  (cmd = Miscled.LEDON ∧ ledcmd = 1) ∨ (cmd = Miscled.LEDOFF ∧ ledcmd = 0) ∨
    ((cmd ≠ Miscled.LEDON ∧ cmd ≠ Miscled.LEDOFF) ∧ (ledcmd ≠ 1 ∧ ledcmd ≠ 0))

/-- The same request to the two drivers: of the wrong size, with a failed copy, or with the same
number and command. -/
inductive Translates (m l : Write) : Prop where
  | wrongSize (misc : m.buf.length ≠ 2) (leds : l.buf.length ≠ 8) : Translates m l
  | failedCopy (misc : m.fate.residue 2 ≠ 0) (leds : l.fate.residue 8 ≠ 0)
      (miscSize : m.buf.length = 2) (ledsSize : l.buf.length = 8) : Translates m l
  | command (cmd num : Byte) (misc : m.buf = [cmd, num]) (leds : l.buf.length = 8)
      (miscCopy : m.fate.residue 2 = 0) (ledsCopy : l.fate.residue 8 = 0)
      (sameNum : SameNum num (KernelCodeV1.LedCtl.ofBytes l.buf).lednum)
      (sameCmd : SameCmd cmd (KernelCodeV1.LedCtl.ofBytes l.buf).ledcmd) : Translates m l

theorem SameCmd.on?_eq {cmd : Byte} {ledcmd : Int32} (h : SameCmd cmd ledcmd) :
    Miscled.on? cmd = KernelCodeV1.on? ledcmd := by
  have hm : Miscled.LEDOFF ≠ Miscled.LEDON := by decide
  have hl : (0 : Int32) ≠ 1 := by decide
  rcases h with ⟨rfl, rfl⟩ | ⟨rfl, rfl⟩ | ⟨⟨h1, h2⟩, h3, h4⟩
  · simp [Miscled.on?, KernelCodeV1.on?]
  · simp [Miscled.on?, KernelCodeV1.on?, hm]
  · simp [Miscled.on?, KernelCodeV1.on?, h1, h2, h3, h4]

theorem SameNum.of?_eq {num : Byte} {lednum : Int32} (h : SameNum num lednum) (on : Option Bool) :
    Command.of? on num.toNat = Command.of? on lednum.toInt := by
  have h1 : (1 : Int32).toInt = 1 := rfl
  have h4 : (4 : Int32).toInt = 4 := rfl
  cases h with
  | inl heq => rw [heq]
  | inr hout =>
    obtain ⟨hnum, hled⟩ := hout
    rw [UInt8.lt_iff_toNat_lt, UInt8.lt_iff_toNat_lt] at hnum
    rw [Int32.lt_iff_toInt_lt, Int32.lt_iff_toInt_lt, h1, h4] at hled
    have hnum' : num.toNat < 1 ∨ 4 < num.toNat := hnum
    rw [Command.of?, Command.of?, if_neg (by omega), if_neg (by omega)]

theorem Translates.command_eq {m l : Write} (h : Translates m l) :
    Miscled.command? m = KernelCodeV1.command? l := by
  unfold Miscled.command? KernelCodeV1.command?
  cases h with
  | wrongSize hm hl => rw [if_neg (fun h => hm h.1), if_neg (fun h => hl h.1)]
  | failedCopy hm hl => rw [if_neg (fun h => hm h.2), if_neg (fun h => hl h.2)]
  | command cmd num hm hl hmc hlc hnum hcmd =>
    have hlen : m.buf.length = 2 := by rw [hm]; rfl
    have h0 : m.buf.getD 0 0 = cmd := by rw [hm]; rfl
    have h1 : m.buf.getD 1 0 = num := by rw [hm]; rfl
    rw [if_pos ⟨hlen, hmc⟩, if_pos ⟨hl, hlc⟩, h0, h1, hcmd.on?_eq, hnum.of?_eq]

/-- The requests of a sequence with the values returned, and the port after it. -/
def serveAll (write : Board → Write → Option (Int × Board)) :
    Board → List Write → Option (List (Write × Int) × Board)
  | b, [] => some ([], b)
  | b, w :: ws => (write b w).bind fun r =>
      (serveAll write r.2 ws).map fun s => ((w, r.1) :: s.1, s.2)

/-- The commands of the log entries that were accepted. -/
def accepted (command? : Write → Option Command) (log : List (Write × Int)) : List Command :=
  log.filterMap fun e => if 0 ≤ e.2 then command? e.1 else none

theorem board_mapped {b : Board} (hm : b.mapped = true) (cs : List Command) :
    (cs.foldl Board.command b).mapped = true := by
  induction cs generalizing b with
  | nil => exact hm
  | cons c cs ih => exact ih (b := b.command c) hm

/-- A sequence of requests carries out the commands of those that are not refused. -/
theorem Serves.all {size : Int} {write : Board → Write → Option (Int × Board)}
    {command? : Write → Option Command} (h : Serves size write command?) (hsize : 0 ≤ size)
    {b : Board} (hm : b.mapped = true) (ws : List Write) :
    ∃ log, serveAll write b ws = some (log, (ws.filterMap command?).foldl Board.command b) ∧
      accepted command? log = ws.filterMap command? ∧
      ∀ e ∈ log, 0 ≤ e.2 → ∃ c, command? e.1 = some c := by
  induction ws generalizing b with
  | nil => exact ⟨[], rfl, rfl, fun _ he => absurd he List.not_mem_nil⟩
  | cons w ws ih =>
    rcases h b w hm with ⟨c, hc, hw⟩ | ⟨hc, ret, hneg, hw⟩
    · obtain ⟨log, hlog, hacc, hsome⟩ := ih (b := b.command c) hm
      refine ⟨(w, size) :: log, ?_, ?_, ?_⟩
      · rw [serveAll, hw, Option.bind_some, hlog, List.filterMap_cons_some hc, List.foldl_cons]
        rfl
      · rw [List.filterMap_cons_some hc, ← hacc]
        simp [accepted, hsize, hc]
      · exact List.forall_mem_cons.mpr ⟨fun _ => ⟨c, hc⟩, hsome⟩
    · obtain ⟨log, hlog, hacc, hsome⟩ := ih hm
      have hrefused : ¬ 0 ≤ ret := by omega
      refine ⟨(w, ret) :: log, ?_, ?_, ?_⟩
      · rw [serveAll, hw, Option.bind_some, hlog, List.filterMap_cons_none hc]
        rfl
      · rw [List.filterMap_cons_none hc, ← hacc]
        simp [accepted, hrefused]
      · exact List.forall_mem_cons.mpr ⟨fun h0 => absurd h0 hrefused, hsome⟩

theorem Shows.command {b : Board} {lit : Lit} (h : Shows b.dat lit) (c : Command) :
    Shows (b.command c).dat (c.apply lit) := by
  intro i
  show (assign b.dat c.lamp (!c.on)).getLsbD i = !Function.update lit c.lamp c.on i
  by_cases hi : i = c.lamp
  · subst hi
    rw [getLsbD_assign_self _ (by omega), Function.update_self]
  · have hne : (i : Nat) ≠ c.lamp := fun h => hi (Fin.ext h)
    rw [getLsbD_assign_of_ne _ hne, Function.update_of_ne hi, h i]

/-- After a sequence of commands the LEDs are as the abstract machine has them, and the other
pins of the port are as they were. -/
theorem foldl_command {b : Board} {lit : Lit} (h : Shows b.dat lit) (cs : List Command) :
    Shows (cs.foldl Board.command b).dat (cs.foldl (fun lit c => c.apply lit) lit) ∧
      ∀ j, 4 ≤ j → (cs.foldl Board.command b).dat.getLsbD j = b.dat.getLsbD j := by
  induction cs generalizing b lit with
  | nil => exact ⟨h, fun _ _ => rfl⟩
  | cons c cs ih =>
    obtain ⟨hshows, hrest⟩ := ih (h.command c)
    refine ⟨hshows, fun j hj => ?_⟩
    have hlamp := c.lamp.isLt
    rw [List.foldl_cons, hrest j hj]
    exact getLsbD_assign_of_ne _ (by omega) _

namespace Miscled

/-- The last accepted command byte for the LED `num`, after one more request. -/
def lastAfter (num : Nat) (last : Byte) (e : Write × Int) : Byte :=
  if 0 ≤ e.2 ∧ (e.1.buf.getD 1 0).toNat = num then e.1.buf.getD 0 0 else last

/-- The last accepted command byte for the LED `num`, or off if there is none. -/
def lastAccepted (num : Nat) (log : List (Write × Int)) : Byte := log.foldl (lastAfter num) LEDOFF

theorem command?_bytes {w : Write} {c : Command} (h : command? w = some c) :
    (w.buf.getD 1 0).toNat = c.lamp + 1 ∧ w.buf.getD 0 0 = cmdOf c.on := by
  unfold command? at h
  by_cases hsize : w.buf.length = 2 ∧ w.fate.residue 2 = 0
  · rw [if_pos hsize] at h
    obtain ⟨hon, hlo, hhi, hlamp⟩ := Command.of?_eq_some h
    exact ⟨by omega, on?_eq_some hon⟩
  · rw [if_neg hsize] at h
    cases h

/-- The last accepted commands are the state of the abstract machine. -/
theorem lastAccepted_eq {log : List (Write × Int)}
    (hsome : ∀ e ∈ log, 0 ≤ e.2 → ∃ c, command? e.1 = some c) (i : Fin 4) :
    lastAccepted (i + 1) log =
      cmdOf ((accepted command? log).foldl (fun lit c => c.apply lit) (fun _ => false) i) := by
  have hfold (lit : Lit) (last : Byte) (hlast : last = cmdOf (lit i)) :
      log.foldl (lastAfter (i + 1)) last =
      cmdOf ((accepted command? log).foldl (fun lit c => c.apply lit) lit i) := by
    induction log generalizing lit last with
    | nil => exact hlast
    | cons e log ih =>
      obtain ⟨he, hsome⟩ := List.forall_mem_cons.mp hsome
      by_cases h0 : 0 ≤ e.2
      · obtain ⟨c, hc⟩ := he h0
        obtain ⟨hnum, hcmd⟩ := command?_bytes hc
        have hacc : accepted command? (e :: log) = c :: accepted command? log := by
          simp [accepted, h0, hc]
        rw [hacc, List.foldl_cons, List.foldl_cons]
        apply ih hsome
        by_cases hi : i = c.lamp
        · subst hi
          rw [lastAfter, if_pos ⟨h0, hnum⟩, hcmd, Command.apply, Function.update_self]
        · have hne : (e.1.buf.getD 1 0).toNat ≠ i + 1 := by
            intro h
            exact hi (Fin.ext (by omega))
          rw [lastAfter, if_neg (fun h => hne h.2), hlast, Command.apply, Function.update_of_ne hi]
      · have hacc : accepted command? (e :: log) = accepted command? log := by
          simp [accepted, h0]
        rw [hacc, List.foldl_cons, lastAfter, if_neg (fun h => h0 h.1)]
        exact ih hsome lit last hlast
  exact hfold (fun _ => false) LEDOFF rfl

/-- `ledstat` reports which LEDs are lit. -/
theorem ledstat_eq {b : Board} (hm : b.mapped = true) {lit : Lit} (h : Shows b.dat lit)
    {stat : Nat → Byte} (hstat : ∀ i : Fin 4, stat i = cmdOf (lit i)) (fate : CopyFate) :
    ledstat b fate = some (fate.residue 4, (List.range 4).map stat) := by
  simp only [ledstat, Board.ioread8, Board.ioread32, hm, if_true, Option.map_some,
    Option.bind_eq_bind, Option.bind_some, Board.get, Option.pure_def, Option.some_inj,
    Prod.mk.injEq, true_and]
  apply List.map_congr_left
  intro i hi
  have hi : i < 4 := List.mem_range.mp hi
  have hdat : ((low 8 b.dat).setWidth 32).getLsbD i = !lit ⟨i, hi⟩ := by
    rw [BitVec.getLsbD_setWidth, getLsbD_low _ (by omega), h ⟨i, hi⟩, decide_eq_true (by omega),
      Bool.true_and]
  have hbit := and_bit_ne_zero ((low 8 b.dat).setWidth 32) (show i < 32 by omega)
  rw [hdat] at hbit
  rw [hstat ⟨i, hi⟩]
  cases hlit : lit ⟨i, hi⟩ with
  | true => rw [if_neg (by rw [hbit, hlit]; decide), cmdOf, if_pos rfl]
  | false => rw [if_pos (by rw [hbit, hlit]; decide), cmdOf, if_neg (by decide)]

end Miscled

theorem setupPort_eq (con dat : BitVec 32) (writes : Nat) :
    Miscled.setupPort ⟨true, con, dat, writes⟩ =
        some ⟨true, (con &&& ~~~0xffff#32) ||| 0x1111#32, dat ||| 0xf#32, writes + 2⟩ ∧
      KernelCodeV1.setupPort ⟨true, con, dat, writes⟩ =
        some ⟨true, (con &&& ~~~0xffff#32) ||| 0x1111#32, dat ||| 0xf#32, writes + 2⟩ := by
  have hlow : putLow (low 8 dat ||| 0xf#8) dat = dat ||| 0xf#32 := putLow_or_low dat _ (by decide)
  constructor
  · simp [Miscled.setupPort, Board.ioread32, Board.iowrite32, Board.ioread8, Board.iowrite8,
      Board.get, Board.set, hlow]
  · simp [KernelCodeV1.setupPort, Board.ioread32, Board.iowrite32, Board.get, Board.set]

theorem shows_off (dat : BitVec 32) : Shows (dat ||| 0xf#32) fun _ => false := by
  intro i
  have hbit : (0xf#32).getLsbD i = true := by
    revert i
    decide
  rw [BitVec.getLsbD_or, hbit, Bool.or_true, Bool.not_false]

theorem high_bits (dat : BitVec 32) {j : Nat} (hj : 4 ≤ j) :
    (dat ||| 0xf#32).getLsbD j = dat.getLsbD j := by
  have hbit : (0xf#32).getLsbD j = false := by
    apply Nat.testBit_lt_two_pow
    calc
      15 < 2 ^ 4 := by decide
      _ ≤ 2 ^ j := Nat.pow_le_pow_right (by decide) hj
  rw [BitVec.getLsbD_or, hbit, Bool.or_false]

/-- A request to both drivers. -/
structure Request where
  misc : Write
  leds : Write
  same : Translates misc leds

/-- From any content of the port and after any sequence of requests the two drivers have the port
in the same state, with its other pins as they were and the states of the LEDs as `ledstat` reports
them, and they serve or refuse the next request alike. -/
theorem led_drivers_agree (con dat : BitVec 32) (reqs : List Request) :
    ∃ start mlog llog b,
      Miscled.setupPort ⟨true, con, dat, 0⟩ = some start ∧
      KernelCodeV1.setupPort ⟨true, con, dat, 0⟩ = some start ∧
      serveAll Miscled.demoWrite start (reqs.map Request.misc) = some (mlog, b) ∧
      serveAll KernelCodeV1.demoWrite start (reqs.map Request.leds) = some (llog, b) ∧
      (∀ j, 4 ≤ j → b.dat.getLsbD j = dat.getLsbD j) ∧
      (∀ fate, Miscled.ledstat b fate = some (fate.residue 4,
        (List.range 4).map fun i => Miscled.lastAccepted (i + 1) mlog)) ∧
      ∀ r : Request, ∃ ret ret' b', Miscled.demoWrite b r.misc = some (ret, b') ∧
        KernelCodeV1.demoWrite b r.leds = some (ret', b') ∧
        (ret < 0 ↔ ret' < 0) ∧ (ret < 0 → b' = b) := by
  obtain ⟨hmisc, hleds⟩ := setupPort_eq con dat 0
  let start : Board := ⟨true, (con &&& ~~~0xffff#32) ||| 0x1111#32, dat ||| 0xf#32, 0 + 2⟩
  have hmapped : start.mapped = true := rfl
  obtain ⟨mlog, hmlog, hmacc, hmsome⟩ :=
    Miscled.serves.all (by decide) hmapped (reqs.map Request.misc)
  obtain ⟨llog, hllog, -, -⟩ :=
    KernelCodeV1.serves.all (by decide) hmapped (reqs.map Request.leds)
  have hsame : (reqs.map Request.leds).filterMap KernelCodeV1.command? =
      (reqs.map Request.misc).filterMap Miscled.command? := by
    rw [List.filterMap_map, List.filterMap_map]
    apply congrArg (fun f => reqs.filterMap f)
    funext r
    exact r.same.command_eq.symm
  rw [hsame] at hllog
  rw [← hmacc] at hmlog hllog
  obtain ⟨hshows, hhigh⟩ := foldl_command (b := start) (shows_off dat)
    (accepted Miscled.command? mlog)
  have hb := board_mapped hmapped (accepted Miscled.command? mlog)
  refine ⟨start, mlog, llog, _, hmisc, hleds, hmlog, hllog, ?_, ?_, ?_⟩
  · intro j hj
    rw [hhigh j hj]
    exact high_bits dat hj
  · exact Miscled.ledstat_eq hb hshows (Miscled.lastAccepted_eq hmsome)
  · intro r
    have heq := r.same.command_eq
    rcases Miscled.serves _ r.misc hb with ⟨c, hc, hw⟩ | ⟨hc, ret, hneg, hw⟩
    · rcases KernelCodeV1.serves _ r.leds hb with ⟨c', hc', hw'⟩ | ⟨hc', -⟩
      · obtain rfl : c = c' := Option.some.inj (hc.symm.trans (heq.trans hc'))
        exact ⟨2, 8, _, hw, hw', by decide, fun h => absurd h (by decide)⟩
      · exact absurd (hc.symm.trans (heq.trans hc')) (Option.some_ne_none c)
    · rcases KernelCodeV1.serves _ r.leds hb with ⟨c', hc', -⟩ | ⟨-, ret', hneg', hw'⟩
      · exact absurd (hc'.symm.trans (heq.symm.trans hc)) (Option.some_ne_none c')
      · exact ⟨ret, ret', _, hw, hw', iff_of_true hneg hneg', fun _ => rfl⟩

end KernelDrivers.Leds
