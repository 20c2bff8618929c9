import KernelDrivers.Framework.CString
import KernelDrivers.Leds.Commands

namespace KernelDrivers.Leds

open Framework Kernel Register

namespace LedChar

/-- `ledonoff`, `ledstat`, `demo_read`, `demo_write` and the port setup of ledchar are those of
miscled. -/
def demoRead : Board → Nat → CopyFate → Option (Int × List Byte) := Miscled.demoRead

def demoWrite : Board → Write → Option (Int × Board) := Miscled.demoWrite

def setupPort : Board → Option Board := Miscled.setupPort

end LedChar

namespace LedSyscall

def LEDON : Int32 := 1

def LEDOFF : Int32 := 2

def LEDSTAT : Int32 := 3

/-- What `ledonoff` of ledsyscall.c makes of `tmp`. -/
def updateTmp (cmd num : Int32) (tmp : BitVec 8) : BitVec 8 :=
  let mask : BitVec 32 := 1#32 <<< (num.toInt - 1).toNat
  if cmd = LEDON then (tmp.setWidth 32 &&& ~~~mask).setWidth 8
  else (tmp.setWidth 32 ||| mask).setWidth 8

def ledonoff (b : Board) (cmd num : Int32) : Option Board := do
  let tmp ← b.ioread8 .gpm4dat
  b.iowrite8 .gpm4dat (updateTmp cmd num tmp)

/-- As in miscled, with the same two values. -/
def ledstat : Board → CopyFate → Option (Nat × List Byte) := Miscled.ledstat

/-- The system call: its value, the bytes the user gets and the port. -/
def sysLedctl (b : Board) (cmd arg : Int32) (fate : CopyFate) :
    Option (Int × List Byte × Board) :=
  if cmd ≠ LEDON ∧ cmd ≠ LEDOFF ∧ cmd ≠ LEDSTAT then some (-einval, [], b)
  else if cmd ≠ LEDSTAT then
    if arg < 1 ∨ 4 < arg then some (-einval, [], b)
    else (ledonoff b cmd arg).map fun b => (0, [], b)
  else (ledstat b fate).map fun (ret, stat) => (ret, stat.take (4 - ret), b)

/-- `led_init` after its `ioremap`. -/
def setupPort : Board → Option Board := Miscled.setupPort

end LedSyscall

namespace GpioLed

def LEDON : Byte := 0

def LEDOFF : Byte := 1

/-- The levels of the four pins of gpio_led. -/
abbrev Pins := Fin 4 → Bool

def leds : List (Fin 4) := List.finRange 4

def gpioSetValue (pins : Pins) (gpio : Fin 4) (value : Byte) : Pins :=
  Function.update pins gpio (value != 0)

def gpioGetValue (pins : Pins) (gpio : Fin 4) : Byte := if pins gpio then 1 else 0

/-- There is no result when the index leaves `leds`. -/
def ledonoff (pins : Pins) (cmd num : Byte) : Option Pins :=
  (leds[num.toNat - 1]?).map fun gpio => gpioSetValue pins gpio cmd

def ledstat (pins : Pins) (fate : CopyFate) : Nat × List Byte :=
  (fate.residue 4, leds.map (gpioGetValue pins))

def demoRead (pins : Pins) (cnt : Nat) (fate : CopyFate) : Option (Int × List Byte) :=
  if cnt ≠ 4 then some (-einval, [])
  else
    let (ret, stat) := ledstat pins fate
    if (ret : Int) < 0 then some (ret, []) else some (cnt, stat.take (4 - ret))

def demoWrite (pins : Pins) (w : Write) : Option (Int × Pins) :=
  if w.buf.length ≠ 2 then some (-einval, pins)
  else if w.fate.residue 2 ≠ 0 then some (-eio, pins)
  else
    let kbuf := w.fate.landed w.buf
    let cmd := kbuf.getD 0 0
    let num := kbuf.getD 1 0
    if cmd ≠ LEDON ∧ cmd ≠ LEDOFF then some (-einval, pins)
    else if num < 1 ∨ 4 < num then some (-einval, pins)
    else (ledonoff pins cmd num).map fun pins => (2, pins)

/-- The pins after `gpio_direction_output(leds[i], LEDOFF)` on each of them. -/
def setup : Pins := fun _ => LEDOFF != 0

end GpioLed

/-- How a run of app/led.c or app/sysled.c ends: with the lines of `state`, with its command carried out, with the
usage, or by an assertion. -/
inductive Exit where
  | lines (text : List String)
  | done
  | usage
  | abort

/-- `!strncmp(text, word, n)`, `n` being the length of `text`. -/
def begins (word : CStr) (text : List Char) : Option Bool :=
  (CStr.strncmp (ascii text ++ [0]) word.memory text.length).map (· == 0)

/-- An `int` that is assigned to a `char`. -/
def toChar (n : Int) : Byte := UInt8.ofNat (n % 256).toNat

def stateLine (i : Nat) (on : Bool) : String :=
  "led_" ++ toString (i + 1) ++ " is " ++ (if on then "on" else "off") ++ ".\n"

/-- The two operations of a device file that the program uses. -/
structure LedFile (σ : Type) where
  read : σ → Nat → CopyFate → Option (Int × List Byte)
  write : σ → Write → Option (Int × σ)

/-- `./led /dev/led on/off num` and `./led /dev/led state` -/
def ledMain {σ : Type} (LEDON LEDOFF : Byte) (F : LedFile σ) (s : σ) (argv : List CStr) :
    Option (σ × Exit) :=
  match argv with
  | [_, _, word] => do
    if ← begins word ['s', 't', 'a', 't', 'e'] then
      let (ret, buf) ← F.read s 4 .success
      if ret ≠ 4 then return (s, .abort)
      return (s, .lines ((List.range 4).map fun i => stateLine i (buf.getD i 0 == LEDON)))
    else return (s, .usage)
  | [_, _, word, num] => do
    let which := toChar (CStr.atoi num.text)
    let send (cmd : Byte) : Option (σ × Exit) := do
      let (ret, s) ← F.write s ⟨[cmd, which], .success⟩
      return (s, if ret ≠ 2 then .abort else .done)
    if ← begins word ['o', 'n'] then send LEDON
    else if ← begins word ['o', 'f', 'f'] then send LEDOFF
    else return (s, .usage)
  | _ => some (s, .usage)

/-- `./sysled on/off num` and `./sysled state` -/
def sysledMain (b : Board) (argv : List CStr) : Option (Board × Exit) :=
  match argv with
  | [_, word] => do
    if ← begins word ['s', 't', 'a', 't', 'e'] then
      let (ret, buf, b) ← LedSyscall.sysLedctl b LedSyscall.LEDSTAT 0 .success
      if ret ≠ 0 then return (b, .abort)
      return (b, .lines ((List.range 4).map fun i =>
        stateLine i ((buf.getD i 0).toNat == LedSyscall.LEDON.toInt)))
    else return (b, .usage)
  | [_, word, num] => do
    let which := Int32.ofInt (CStr.atoi num.text)
    let send (cmd : Int32) : Option (Board × Exit) := do
      let (ret, _, b) ← LedSyscall.sysLedctl b cmd which .success
      return (b, if ret ≠ 0 then .abort else .done)
    if ← begins word ['o', 'n'] then send LedSyscall.LEDON
    else if ← begins word ['o', 'f', 'f'] then send LedSyscall.LEDOFF
    else return (b, .usage)
  | _ => some (b, .usage)

def miscledMain : Board → List CStr → Option (Board × Exit) :=
  ledMain Miscled.LEDON Miscled.LEDOFF ⟨Miscled.demoRead, Miscled.demoWrite⟩

def ledcharMain : Board → List CStr → Option (Board × Exit) :=
  ledMain Miscled.LEDON Miscled.LEDOFF ⟨LedChar.demoRead, LedChar.demoWrite⟩

def gpioLedMain : GpioLed.Pins → List CStr → Option (GpioLed.Pins × Exit) :=
  ledMain GpioLed.LEDON GpioLed.LEDOFF ⟨GpioLed.demoRead, GpioLed.demoWrite⟩

/-- One program after another; there is no result when one of them makes an access fail. -/
def session {σ α : Type} (main : σ → α → Option (σ × Exit)) : σ → List α → Option (σ × List Exit)
  | s, [] => some (s, [])
  | s, argv :: argvs => do
    let (s, exit) ← main s argv
    let (s, exits) ← session main s argvs
    return (s, exit :: exits)

/-- What a command line asks for, on the words after the names of program and device. -/
inductive Wish where
  | state
  | command (on : Bool) (num : CStr)
  | none

def wish : List CStr → Wish
  | [word] => if ascii ['s', 't', 'a', 't', 'e'] <+: word.text then .state else .none
  | [word, num] =>
    if ascii ['o', 'n'] <+: word.text then .command true num
    else if ascii ['o', 'f', 'f'] <+: word.text then .command false num
    else .none
  | _ => .none

/-- The lamps and one command line; `narrow` is what the program makes of the number. -/
def lampMain (narrow : Int → Int) (lit : Lit) (line : List CStr) : Lit × Exit :=
  match wish line with
  | .none => (lit, .usage)
  | .state => (lit, .lines ((List.finRange 4).map fun (i : Fin 4) => stateLine i (lit i)))
  | .command on num =>
    match Command.of? (some on) (narrow (CStr.atoi num.text)) with
    | some c => (c.apply lit, .done)
    | none => (lit, .abort)

def lampSession (narrow : Int → Int) : Lit → List (List CStr) → Lit × List Exit
  | lit, [] => (lit, [])
  | lit, line :: lines =>
    let (lit, exit) := lampMain narrow lit line
    let (lit, exits) := lampSession narrow lit lines
    (lit, exit :: exits)

/-- A program, given some words before the line, does to its device what the line does to the
lamps. -/
def Plays {σ : Type} (main : σ → List CStr → Option (σ × Exit)) (skip : Nat) (narrow : Int → Int)
    (R : σ → Lit → Prop) : Prop :=
  ∀ s lit argv, R s lit →
    ∃ s', main s argv = some (s', (lampMain narrow lit (argv.drop skip)).2) ∧
      R s' (lampMain narrow lit (argv.drop skip)).1

theorem Plays.session {σ : Type} {main : σ → List CStr → Option (σ × Exit)} {skip : Nat}
    {narrow : Int → Int} {R : σ → Lit → Prop} (h : Plays main skip narrow R)
    (argvs : List (List CStr)) {s : σ} {lit : Lit} (hr : R s lit) :
    ∃ s', session main s argvs =
        some (s', (lampSession narrow lit (argvs.map (List.drop skip))).2) ∧
      R s' (lampSession narrow lit (argvs.map (List.drop skip))).1 := by
  induction argvs generalizing s lit with
  | nil => exact ⟨s, rfl, hr⟩
  | cons argv argvs ih =>
    obtain ⟨s₁, hmain, hr₁⟩ := h s lit argv hr
    obtain ⟨s₂, hrest, hr₂⟩ := ih hr₁
    refine ⟨s₂, ?_, hr₂⟩
    rw [Leds.session, hmain, Option.bind_eq_bind, Option.bind_some]
    simp only [hrest, Option.bind_eq_bind, Option.bind_some, Option.pure_def]
    rfl

theorem begins_eq (word : CStr) (text : List Char) (h : 0 ∉ ascii text) :
    begins word text = some (decide (ascii text <+: word.text)) := by
  have hshown : shown (ascii text ++ [0]) = ascii text := by
    rw [shown_concat, shown_of_no_nul h]
  have hends : 0 ∈ ascii text ++ [0] := List.mem_append_right _ (List.mem_singleton_self 0)
  obtain ⟨r, hr, hiff⟩ := CStr.strncmp_prefix hends word.ends
  have hlen : (ascii text).length = text.length := List.length_map _
  rw [hshown, hlen] at hr
  rw [hshown] at hiff
  rw [begins, hr, Option.map_some, CStr.text, ← decide_eq_decide.mpr hiff]
  rfl

theorem toChar_toNat (n : Int) : ((toChar n).toNat : Int) = n % 256 := by
  have hlt : (n % 256).toNat < 256 := by omega
  rw [toChar, UInt8.toNat_ofNat_of_lt' hlt]
  omega

/-- What the device program needs of a driver. -/
structure Drives {σ : Type} (LEDON LEDOFF : Byte) (F : LedFile σ) (R : σ → Lit → Prop) : Prop where
  read : ∀ s lit, R s lit → ∃ buf, F.read s 4 .success = some (4, buf) ∧
    ∀ i : Fin 4, (buf.getD i 0 == LEDON) = lit i
  accepted : ∀ s lit on (num : Byte) c, R s lit → Command.of? (some on) num.toNat = some c →
    ∃ s', F.write s ⟨[if on then LEDON else LEDOFF, num], .success⟩ = some (2, s') ∧
      R s' (c.apply lit)
  refused : ∀ s lit on (num : Byte), R s lit → Command.of? (some on) num.toNat = none →
    ∃ ret, ret < 0 ∧ F.write s ⟨[if on then LEDON else LEDOFF, num], .success⟩ = some (ret, s)

/-- The lines of `state`, from an array that shows which lamps are lit. -/
theorem stateLines_eq {lit : Lit} (on : Nat → Bool) (h : ∀ i : Fin 4, on i = lit i) :
    ((List.range 4).map fun i => stateLine i (on i)) =
      (List.finRange 4).map fun (i : Fin 4) => stateLine i (lit i) := by
  rw [← List.map_coe_finRange_eq_range, List.map_map]
  apply List.map_congr_left
  intro i _
  exact congrArg (stateLine i) (h i)

theorem ledMain_plays {σ : Type} {LEDON LEDOFF : Byte} {F : LedFile σ} {R : σ → Lit → Prop}
    (h : Drives LEDON LEDOFF F R) : Plays (ledMain LEDON LEDOFF F) 2 (· % 256) R := by
  intro s lit argv hr
  have hstate (word : CStr) := begins_eq word ['s', 't', 'a', 't', 'e'] (by decide)
  have hon (word : CStr) := begins_eq word ['o', 'n'] (by decide)
  have hoff (word : CStr) := begins_eq word ['o', 'f', 'f'] (by decide)
  match argv with
  | [] | [_] | [_, _] | _ :: _ :: _ :: _ :: _ :: _ => exact ⟨s, rfl, hr⟩
  | [_, _, word] =>
    obtain ⟨buf, hread, hbuf⟩ := h.read s lit hr
    by_cases hw : ascii ['s', 't', 'a', 't', 'e'] <+: word.text
    · refine ⟨s, ?_, ?_⟩
      · have hlines := stateLines_eq (fun i => buf.getD i 0 == LEDON) hbuf
        simp only [ledMain, hstate, hw, decide_true, if_true, Option.bind_eq_bind, Option.bind_some,
          hread, ne_eq, not_true_eq_false, if_false, Option.pure_def, lampMain, wish,
          List.drop_succ_cons, List.drop_zero, hlines]
      · simpa [lampMain, wish, hw] using hr
    · refine ⟨s, ?_, ?_⟩
      · simp [ledMain, hstate, hw, lampMain, wish]
      · simpa [lampMain, wish, hw] using hr
  | [_, _, word, num] =>
    have hsend (on : Bool) : ∃ ret s', F.write s
        ⟨[if on then LEDON else LEDOFF, toChar (CStr.atoi num.text)], .success⟩ = some (ret, s') ∧
        (if ret ≠ 2 then Exit.abort else .done) =
          (match Command.of? (some on) (CStr.atoi num.text % 256) with
            | some c => (c.apply lit, Exit.done)
            | none => (lit, .abort)).2 ∧
        R s' (match Command.of? (some on) (CStr.atoi num.text % 256) with
            | some c => (c.apply lit, Exit.done)
            | none => (lit, .abort)).1 := by
      rw [← toChar_toNat]
      cases hc : Command.of? (some on) (toChar (CStr.atoi num.text)).toNat with
      | some c =>
        obtain ⟨s', hwrite, hr'⟩ := h.accepted s lit on _ c hr hc
        exact ⟨2, s', hwrite, rfl, hr'⟩
      | none =>
        obtain ⟨ret, hneg, hwrite⟩ := h.refused s lit on _ hr hc
        exact ⟨ret, s, hwrite, if_pos (by omega), hr⟩
    by_cases hw : ascii ['o', 'n'] <+: word.text
    · obtain ⟨ret, s', hwrite, hexit, hr'⟩ := hsend true
      rw [if_pos rfl] at hwrite
      refine ⟨s', ?_, ?_⟩
      · simp only [ledMain, hon, hw, decide_true, if_true, Option.bind_eq_bind, Option.bind_some,
          hwrite, hexit, lampMain, wish, List.drop_succ_cons, List.drop_zero, Option.pure_def]
      · simpa only [lampMain, wish, List.drop_succ_cons, List.drop_zero, if_pos hw] using hr'
    · by_cases hw' : ascii ['o', 'f', 'f'] <+: word.text
      · obtain ⟨ret, s', hwrite, hexit, hr'⟩ := hsend false
        rw [if_neg (by decide)] at hwrite
        refine ⟨s', ?_, ?_⟩
        · simp only [ledMain, hon, hoff, hw, hw', decide_true, decide_false, if_true, if_false,
            Option.bind_eq_bind, Option.bind_some, hwrite, hexit, lampMain, wish,
            List.drop_succ_cons, List.drop_zero, Option.pure_def, Bool.false_eq_true]
        · simpa only [lampMain, wish, List.drop_succ_cons, List.drop_zero, if_neg hw, if_pos hw']
            using hr'
      · refine ⟨s, ?_, ?_⟩
        · simp [ledMain, hon, hoff, hw, hw', lampMain, wish]
        · simpa [lampMain, wish, hw, hw'] using hr

/-- The port of a loaded driver shows the lamps. -/
def OnPort (b : Board) (lit : Lit) : Prop := b.mapped = true ∧ Shows b.dat lit

theorem miscled_command? (on : Bool) (num : Byte) :
    Miscled.command? ⟨[if on then Miscled.LEDON else Miscled.LEDOFF, num], .success⟩ =
      Command.of? (some on) num.toNat := by
  have hon : Miscled.on? (if on then Miscled.LEDON else Miscled.LEDOFF) = some on := by
    cases on <;> decide
  have hsize : [if on then Miscled.LEDON else Miscled.LEDOFF, num].length = 2 ∧
      CopyFate.success.residue 2 = 0 := ⟨rfl, rfl⟩
  rw [Miscled.command?, if_pos hsize]
  simp only [List.getD_cons_zero, List.getD_cons_succ, hon]

theorem miscled_stat {b : Board} {lit : Lit} (h : OnPort b lit) :
    Miscled.ledstat b .success =
      some (0, (List.finRange 4).map fun i => Miscled.cmdOf (lit i)) := by
  let stat (k : Nat) : Byte := Miscled.cmdOf (lit (lampOf (k + 1)))
  have hstat : ∀ i : Fin 4, stat i = Miscled.cmdOf (lit i) := by
    intro i
    have hlamp : lampOf (i + 1) = i := Fin.ext (Nat.mod_eq_of_lt i.isLt)
    simp only [stat, hlamp]
  have hmap : (List.range 4).map stat = (List.finRange 4).map fun i => Miscled.cmdOf (lit i) := by
    rw [← List.map_coe_finRange_eq_range, List.map_map]
    exact List.map_congr_left fun i _ => hstat i
  rw [Miscled.ledstat_eq h.1 h.2 hstat, hmap]
  rfl

/-- The four bytes are what a copy of four bytes takes of them. -/
theorem take_stat (lit : Lit) :
    ((List.finRange 4).map fun i => Miscled.cmdOf (lit i)).take 4 =
      (List.finRange 4).map fun i => Miscled.cmdOf (lit i) := by
  apply List.take_of_length_le
  rw [List.length_map, List.length_finRange]

theorem miscled_drives :
    Drives Miscled.LEDON Miscled.LEDOFF ⟨Miscled.demoRead, Miscled.demoWrite⟩ OnPort where
  read b lit h := by
    refine ⟨(List.finRange 4).map fun i => Miscled.cmdOf (lit i), ?_, ?_⟩
    · simp only [Miscled.demoRead, ne_eq, not_true_eq_false, ↓reduceIte, miscled_stat h,
        Option.pure_def, Int.cast_ofNat_Int, Option.bind_eq_bind, Option.bind_some,
        Int.lt_irrefl, Nat.sub_zero, Option.some.injEq, Prod.mk.injEq, true_and]
      exact take_stat lit
    · intro i
      have hon : (Miscled.cmdOf (lit i) == Miscled.LEDON) = lit i := by
        cases lit i <;> decide
      simpa [List.getD_eq_getElem?_getD] using hon
  accepted b lit on num c h hc := by
    rcases Miscled.serves b ⟨[if on then Miscled.LEDON else Miscled.LEDOFF, num], .success⟩ h.1 with
      ⟨c', hc', hw⟩ | ⟨hc', -⟩
    · rw [miscled_command?, hc] at hc'
      obtain rfl := Option.some.inj hc'
      exact ⟨_, hw, h.1, h.2.command c⟩
    · rw [miscled_command?, hc] at hc'
      cases hc'
  refused b lit on num h hc := by
    rcases Miscled.serves b ⟨[if on then Miscled.LEDON else Miscled.LEDOFF, num], .success⟩ h.1 with
      ⟨c', hc', -⟩ | ⟨-, ret, hneg, hw⟩
    · rw [miscled_command?, hc] at hc'
      cases hc'
    · exact ⟨ret, hneg, hw⟩

/-- A low pin lights its lamp. -/
def OnPins (pins : GpioLed.Pins) (lit : Lit) : Prop := ∀ i, pins i = !lit i

theorem gpioLed_drives :
    Drives GpioLed.LEDON GpioLed.LEDOFF ⟨GpioLed.demoRead, GpioLed.demoWrite⟩ OnPins where
  read pins lit h := by
    refine ⟨GpioLed.leds.map (GpioLed.gpioGetValue pins), ?_, ?_⟩
    · have hlen : (GpioLed.leds.map (GpioLed.gpioGetValue pins)).length = 4 := by
        rw [List.length_map]
        exact List.length_finRange
      have htake := List.take_of_length_le (Nat.le_of_eq hlen)
      simpa [GpioLed.demoRead, GpioLed.ledstat, CopyFate.success, CopyFate.residue] using htake
    · intro i
      have hon : (GpioLed.gpioGetValue pins i == GpioLed.LEDON) = lit i := by
        rw [GpioLed.gpioGetValue, h i]
        cases lit i <;> decide
      simpa [GpioLed.leds, List.getD_eq_getElem?_getD] using hon
  accepted pins lit on num c h hc := by
    obtain ⟨hon, hlo, hhi, hlamp⟩ := Command.of?_eq_some hc
    have hrange : ¬ (num < 1 ∨ 4 < num) := by
      rw [UInt8.lt_iff_toNat_lt, UInt8.lt_iff_toNat_lt]
      show ¬ (num.toNat < 1 ∨ 4 < num.toNat)
      omega
    have hcmd : ¬ ((if on then GpioLed.LEDON else GpioLed.LEDOFF) ≠ GpioLed.LEDON ∧
        (if on then GpioLed.LEDON else GpioLed.LEDOFF) ≠ GpioLed.LEDOFF) := by
      cases on <;> decide
    have hgpio : GpioLed.leds[num.toNat - 1]? = some c.lamp := by
      have hidx : num.toNat - 1 = c.lamp := by omega
      rw [hidx, GpioLed.leds]
      simp
    refine ⟨GpioLed.gpioSetValue pins c.lamp (if on then GpioLed.LEDON else GpioLed.LEDOFF), ?_, ?_⟩
    · simp only [GpioLed.demoWrite, CopyFate.landed, CopyFate.residue, CopyFate.success,
        List.length_cons, List.length_nil, Nat.zero_min, if_true, List.getD_cons_zero,
        List.getD_cons_succ, if_neg hcmd, if_neg hrange, GpioLed.ledonoff, hgpio, Option.map_some]
      rfl
    · intro i
      rw [GpioLed.gpioSetValue, Command.apply]
      by_cases hi : i = c.lamp
      · subst hi
        rw [Function.update_self, Function.update_self, ← Option.some.inj hon]
        cases on <;> decide
      · rw [Function.update_of_ne hi, Function.update_of_ne hi, h i]
  refused pins lit on num h hc := by
    have hrange : num < 1 ∨ 4 < num := by
      rw [UInt8.lt_iff_toNat_lt, UInt8.lt_iff_toNat_lt]
      show num.toNat < 1 ∨ 4 < num.toNat
      have hnum := (Command.of?_eq_none hc).resolve_left (Option.some_ne_none on)
      omega
    have hcmd : ¬ ((if on then GpioLed.LEDON else GpioLed.LEDOFF) ≠ GpioLed.LEDON ∧
        (if on then GpioLed.LEDON else GpioLed.LEDOFF) ≠ GpioLed.LEDOFF) := by
      cases on <;> decide
    refine ⟨-einval, by decide, ?_⟩
    simp only [GpioLed.demoWrite, CopyFate.landed, CopyFate.residue, CopyFate.success,
      List.length_cons, List.length_nil, Nat.zero_min, if_true, List.getD_cons_zero,
      List.getD_cons_succ, if_neg hcmd, if_pos hrange]
    rfl

namespace LedSyscall

/-- The command value that brings an LED into a state. -/
def cmdOf (on : Bool) : Int32 := if on then LEDON else LEDOFF

theorem updateTmp_eq {c : Command} {num : Int32} (hnum : num.toInt = c.lamp + 1)
    (tmp : BitVec 8) : updateTmp (cmdOf c.on) num tmp = assign tmp c.lamp (!c.on) := by
  have hbit : (num.toInt - 1).toNat = c.lamp := by omega
  have hpromoted (on : Bool) : (assign (tmp.setWidth 32) c.lamp on).setWidth 8 =
      assign tmp c.lamp on := low_assign_promoted tmp (by omega) (by decide) on
  simp only [updateTmp, hbit, ← assign_false, ← assign_true, hpromoted]
  cases c.on with
  | true => rfl
  | false => rfl

theorem ledonoff_eq {b : Board} (hm : b.mapped = true) {c : Command} {num : Int32}
    (hnum : num.toInt = c.lamp + 1) : ledonoff b (cmdOf c.on) num = some (b.command c) := by
  have hwide : putLow (assign (low 8 b.dat) c.lamp (!c.on)) b.dat =
      assign b.dat c.lamp (!c.on) := putLow_assign_low b.dat (by omega) (by decide) _
  simp only [ledonoff, Board.ioread8, Board.ioread32, Board.iowrite8, Board.iowrite32, hm,
    if_true, Option.map_some, Option.bind_eq_bind, Option.bind_some, Board.get,
    updateTmp_eq hnum, hwide]
  rfl

/-- The system call carries out a command, or refuses it and leaves the port alone. -/
theorem sysLedctl_eq {b : Board} (hm : b.mapped = true) (on : Bool) (num : Int32)
    (fate : CopyFate) :
    sysLedctl b (cmdOf on) num fate =
      match Command.of? (some on) num.toInt with
      | some c => some (0, [], b.command c)
      | none => some (-einval, [], b) := by
  have h1 : (1 : Int32).toInt = 1 := rfl
  have h4 : (4 : Int32).toInt = 4 := rfl
  have hcmd : ¬ (cmdOf on ≠ LEDON ∧ cmdOf on ≠ LEDOFF ∧ cmdOf on ≠ LEDSTAT) := by
    cases on <;> decide
  have hstat : cmdOf on ≠ LEDSTAT := by cases on <;> decide
  have hrange : num < 1 ∨ 4 < num ↔ num.toInt < 1 ∨ 4 < num.toInt := by
    rw [Int32.lt_iff_toInt_lt, Int32.lt_iff_toInt_lt, h1, h4]
  rw [sysLedctl, if_neg hcmd, if_pos hstat]
  cases hc : Command.of? (some on) num.toInt with
  | some c =>
    obtain ⟨hon, hlo, hhi, hlamp⟩ := Command.of?_eq_some hc
    have hnum : num.toInt = c.lamp + 1 := by omega
    rw [if_neg (by rw [hrange]; omega), Option.some.inj hon, ledonoff_eq hm hnum]
    rfl
  | none =>
    have hnum := (Command.of?_eq_none hc).resolve_left (Option.some_ne_none on)
    rw [if_pos (hrange.mpr hnum)]

end LedSyscall

theorem sysled_stat {b : Board} {lit : Lit} (h : OnPort b lit) :
    ∃ buf, LedSyscall.sysLedctl b LedSyscall.LEDSTAT 0 .success = some (0, buf, b) ∧
      ∀ i : Fin 4, ((buf.getD i 0).toNat == LedSyscall.LEDON.toInt) = lit i := by
  have hcmd : ¬ (LedSyscall.LEDSTAT ≠ LedSyscall.LEDON ∧ LedSyscall.LEDSTAT ≠ LedSyscall.LEDOFF ∧
      LedSyscall.LEDSTAT ≠ LedSyscall.LEDSTAT) := fun h => h.2.2 rfl
  refine ⟨(List.finRange 4).map fun i => Miscled.cmdOf (lit i), ?_, ?_⟩
  · rw [LedSyscall.sysLedctl, if_neg hcmd, if_neg (not_not.mpr rfl), LedSyscall.ledstat,
      miscled_stat h, Option.map_some]
    show some ((0 : Int), ((List.finRange 4).map fun i => Miscled.cmdOf (lit i)).take 4, b) = _
    rw [take_stat]
  · intro i
    have hon : ((Miscled.cmdOf (lit i)).toNat == LedSyscall.LEDON.toInt) = lit i := by
      cases lit i <;> decide
    simpa [List.getD_eq_getElem?_getD] using hon

theorem sysled_plays : Plays sysledMain 1 id OnPort := by
  intro b lit argv hr
  have hstate (word : CStr) := begins_eq word ['s', 't', 'a', 't', 'e'] (by decide)
  have hon (word : CStr) := begins_eq word ['o', 'n'] (by decide)
  have hoff (word : CStr) := begins_eq word ['o', 'f', 'f'] (by decide)
  match argv with
  | [] | [_] | _ :: _ :: _ :: _ :: _ => exact ⟨b, rfl, hr⟩
  | [_, word] =>
    obtain ⟨buf, hread, hbuf⟩ := sysled_stat hr
    by_cases hw : ascii ['s', 't', 'a', 't', 'e'] <+: word.text
    · refine ⟨b, ?_, ?_⟩
      · have hlines := stateLines_eq (fun i => (buf.getD i 0).toNat == LedSyscall.LEDON.toInt) hbuf
        simp only [sysledMain, hstate, hw, decide_true, if_true, Option.bind_eq_bind,
          Option.bind_some, hread, ne_eq, not_true_eq_false, if_false, Option.pure_def, lampMain,
          wish, List.drop_succ_cons, List.drop_zero, hlines]
      · simpa [lampMain, wish, hw] using hr
    · refine ⟨b, ?_, ?_⟩
      · simp [sysledMain, hstate, hw, lampMain, wish]
      · simpa [lampMain, wish, hw] using hr
  | [_, word, num] =>
    have hwhich : (Int32.ofInt (CStr.atoi num.text)).toInt = CStr.atoi num.text := by
      obtain ⟨hlo, hhi⟩ := CStr.atoi_range num.text
      exact Int32.toInt_ofInt_of_le hlo (by omega)
    have hsend (on : Bool) : ∃ ret b',
        LedSyscall.sysLedctl b (LedSyscall.cmdOf on) (Int32.ofInt (CStr.atoi num.text)) .success =
          some (ret, [], b') ∧
        (if ret ≠ 0 then Exit.abort else .done) =
          (match Command.of? (some on) (id (CStr.atoi num.text)) with
            | some c => (c.apply lit, Exit.done)
            | none => (lit, .abort)).2 ∧
        OnPort b' (match Command.of? (some on) (id (CStr.atoi num.text)) with
            | some c => (c.apply lit, Exit.done)
            | none => (lit, .abort)).1 := by
      rw [LedSyscall.sysLedctl_eq hr.1, hwhich, id]
      cases Command.of? (some on) (CStr.atoi num.text) with
      | some c => exact ⟨0, _, rfl, rfl, hr.1, hr.2.command c⟩
      | none => exact ⟨-einval, _, rfl, rfl, hr⟩
    by_cases hw : ascii ['o', 'n'] <+: word.text
    · obtain ⟨ret, b', hcall, hexit, hr'⟩ := hsend true
      have hcmd : LedSyscall.cmdOf true = LedSyscall.LEDON := rfl
      rw [hcmd] at hcall
      refine ⟨b', ?_, ?_⟩
      · simp only [sysledMain, hon, hw, decide_true, if_true, Option.bind_eq_bind,
          Option.bind_some, hcall, hexit, lampMain, wish, List.drop_succ_cons, List.drop_zero,
          Option.pure_def]
      · simpa only [lampMain, wish, List.drop_succ_cons, List.drop_zero, if_pos hw] using hr'
    · by_cases hw' : ascii ['o', 'f', 'f'] <+: word.text
      · obtain ⟨ret, b', hcall, hexit, hr'⟩ := hsend false
        have hcmd : LedSyscall.cmdOf false = LedSyscall.LEDOFF := rfl
        rw [hcmd] at hcall
        refine ⟨b', ?_, ?_⟩
        · simp only [sysledMain, hon, hoff, hw, hw', decide_true, decide_false, if_true, if_false,
            Option.bind_eq_bind, Option.bind_some, hcall, hexit, lampMain, wish,
            List.drop_succ_cons, List.drop_zero, Option.pure_def, Bool.false_eq_true]
        · simpa only [lampMain, wish, List.drop_succ_cons, List.drop_zero, if_neg hw, if_pos hw']
            using hr'
      · refine ⟨b, ?_, ?_⟩
        · simp [sysledMain, hon, hoff, hw, hw', lampMain, wish]
        · simpa [lampMain, wish, hw, hw'] using hr

theorem setup_onPort (con dat : BitVec 32) :
    ∃ b, Miscled.setupPort ⟨true, con, dat, 0⟩ = some b ∧ OnPort b fun _ => false :=
  ⟨_, (setupPort_eq con dat 0).1, rfl, shows_off dat⟩

/-- What the programs make of a number matters only outside the range of a `char`. -/
theorem lampSession_congr {narrow narrow' : Int → Int} (lit : Lit) {lines : List (List CStr)}
    (h : ∀ line ∈ lines, ∀ num ∈ line,
      narrow (CStr.atoi num.text) = narrow' (CStr.atoi num.text)) :
    lampSession narrow lit lines = lampSession narrow' lit lines := by
  induction lines generalizing lit with
  | nil => rfl
  | cons line lines ih =>
    obtain ⟨hline, hrest⟩ := List.forall_mem_cons.mp h
    have hmain : lampMain narrow lit line = lampMain narrow' lit line := by
      match line with
      | [] | _ :: _ :: _ :: _ => rfl
      | [word] =>
        by_cases hw : ascii ['s', 't', 'a', 't', 'e'] <+: word.text
        · simp only [lampMain, wish, if_pos hw]
        · simp only [lampMain, wish, if_neg hw]
      | [word, num] =>
        have hnum := hline num (by simp)
        simp only [lampMain, wish]
        split
        · rfl
        · rfl
        · rename_i on num' hwish
          have hsame : num' = num := by
            split at hwish
            · exact (Wish.command.inj hwish).2.symm
            · split at hwish
              · exact (Wish.command.inj hwish).2.symm
              · cases hwish
          rw [hsame, hnum]
    simp only [lampSession, hmain, ih _ hrest]

/-- Any session of command lines on any of the four drivers: every program does to its LEDs and
prints what the line means for four lamps that are off at the start, and no access of a driver
fails. The device programs take the number modulo 256, so all four agree on every session whose
numbers are between 0 and 255. -/
theorem led_sessions (con dat : BitVec 32) (prog dev : CStr) (lines : List (List CStr)) :
    let off : Lit := fun _ => false
    let files := lines.map fun line => prog :: dev :: line
    let calls := lines.map fun line => prog :: line
    let narrow := lampSession (· % 256) off lines
    let wide := lampSession id off lines
    (∃ start b, Miscled.setupPort ⟨true, con, dat, 0⟩ = some start ∧
      session miscledMain start files = some (b, narrow.2) ∧ Shows b.dat narrow.1) ∧
    (∃ start b, LedChar.setupPort ⟨true, con, dat, 0⟩ = some start ∧
      session ledcharMain start files = some (b, narrow.2) ∧ Shows b.dat narrow.1) ∧
    (∃ pins, session gpioLedMain GpioLed.setup files = some (pins, narrow.2) ∧
      ∀ i, pins i = !narrow.1 i) ∧
    (∃ start b, LedSyscall.setupPort ⟨true, con, dat, 0⟩ = some start ∧
      session sysledMain start calls = some (b, wide.2) ∧ Shows b.dat wide.1) ∧
    ((∀ line ∈ lines, ∀ num ∈ line, 0 ≤ CStr.atoi num.text ∧ CStr.atoi num.text ≤ 255) →
      narrow = wide) := by
  intro off files calls narrow wide
  have hfiles : files.map (List.drop 2) = lines := by
    rw [List.map_map]
    exact List.map_id lines
  have hcalls : calls.map (List.drop 1) = lines := by
    rw [List.map_map]
    exact List.map_id lines
  obtain ⟨start, hstart, hoff⟩ := setup_onPort con dat
  have hpins : OnPins GpioLed.setup off := fun _ => rfl
  obtain ⟨b, hb, hport⟩ := (ledMain_plays miscled_drives).session files hoff
  obtain ⟨pins, hp, hlevels⟩ := (ledMain_plays gpioLed_drives).session files hpins
  obtain ⟨b', hb', hport'⟩ := sysled_plays.session calls hoff
  rw [hfiles] at hb hport hp hlevels
  rw [hcalls] at hb' hport'
  refine ⟨⟨start, b, hstart, hb, hport.2⟩, ⟨start, b, hstart, hb, hport.2⟩, ⟨pins, hp, hlevels⟩,
    ⟨start, b', hstart, hb', hport'.2⟩, ?_⟩
  intro hnum
  apply lampSession_congr
  intro line hline num hmem
  obtain ⟨hlo, hhi⟩ := hnum line hline num hmem
  exact Int.emod_eq_of_lt hlo (by omega)

end KernelDrivers.Leds
