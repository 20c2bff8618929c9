import KernelDrivers.Buzzer.Ioctl
import KernelDrivers.Framework.CString

namespace KernelDrivers.Buzzer

open Framework Kernel

/-- How a run of the program ends; `range` is the message that the number is out of range. -/
inductive Ending where
  | usage
  | range (hz : Int)
  | perror (ret : Int)
  | done
  deriving DecidableEq

/-- What `./app sethz hz` and `./app stop` make of their arguments: an ending, or one call of the
driver. -/
def appArgs (argv : List CStr) : Option (Ending ⊕ Call) :=
  match argv with
  | [_, word, number] => do
    let differs ← CStr.strcmp (ascii ['s', 'e', 't', 'h', 'z'] ++ [0]) word.memory
    if differs ≠ 0 then return .inl .usage
    let hz := CStr.atoi number.text
    if hz < 0 ∨ 4000 < hz then return .inl (.range hz)
    return .inr ⟨SET_BUZZER_HZ, UInt32.ofNat (hz % 4294967296).toNat⟩
  | [_, word] => do
    let differs ← CStr.strcmp (ascii ['s', 't', 'o', 'p'] ++ [0]) word.memory
    if differs ≠ 0 then return .inl .done
    -- the call has no third argument, and the driver does not look at it
    return .inr ⟨STOP_BUZZER, 0⟩
  | _ => some (.inl .usage)

/-- A run of the program up to its end, or up to a division by zero in the driver. -/
def appMain (b : Board) (argv : List CStr) : Option (Board × Ending) := do
  match ← appArgs argv with
  | .inl exit => return (b, exit)
  | .inr call =>
    let (ret, b) ← buzzerIoctl b call.request call.arg
    return (b, if ret < 0 then .perror ret else .done)

/-- One run of the program after another, up to the first in which the driver divides by zero:
the board, how the runs have ended, and the lines from that one on. What the processor makes of
the division, and so what becomes of these lines, is left open. -/
def appSession : Board → List (List CStr) → Board × List Ending × List (List CStr)
  | b, [] => (b, [], [])
  | b, argv :: lines =>
    match appMain b argv with
    | none => (b, [], argv :: lines)
    | some (b, exit) =>
      let (b, exits, left) := appSession b lines
      (b, exit :: exits, left)

abbrev Tone := Option Nat

/-- The line asks for a tone. -/
def asks? (argv : List CStr) : Option Int :=
  match argv with
  | [_, word, number] =>
    if word.text = ascii ['s', 'e', 't', 'h', 'z'] then some (CStr.atoi number.text) else none
  | _ => none

def toneMain (t : Tone) (argv : List CStr) : Tone × Ending :=
  match argv with
  | [_, _, _] =>
    match asks? argv with
    | none => (t, .usage)
    | some hz => if hz < 0 ∨ 4000 < hz then (t, .range hz) else (some hz.toNat, .done)
  | [_, word] => (if word.text = ascii ['s', 't', 'o', 'p'] then none else t, .done)
  | _ => (t, .usage)

def toneSession : Tone → List (List CStr) → Tone × List Ending
  | t, [] => (t, [])
  | t, argv :: lines =>
    let (t, exit) := toneMain t argv
    let (t, exits) := toneSession t lines
    (t, exit :: exits)

/-- The board sounds the tone: the PWM has the pin and the period of the frequency, or neither runs
nor drives the pin. -/
def Sounds (b : Board) : Tone → Prop
  | some hz => b.enabled = true ∧ b.pin = .sfn 2 ∧ ∃ duty period, b.config = some (duty, period) ∧
      period.toInt = 1000000000 / (hz : Int) ∧ duty.toInt = period.toInt / 2
  | none => b.enabled = false ∧ b.pin = .output 0

theorem stopBuzzer_sounds (b : Board) : Sounds (stopBuzzer b) none := ⟨rfl, rfl⟩

theorem setPwmHz_sounds (b : Board) {hz : Nat} (hpos : 0 < hz) (hle : hz ≤ 4000) :
    ∃ b', setPwmHz b (UInt32.ofNat hz) = some b' ∧ Sounds b' (some hz) := by
  have hnat : (UInt32.ofNat hz).toNat = hz := by
    apply UInt32.toNat_ofNat_of_lt'
    show hz < 4294967296
    omega
  cases hset : setPwmHz b (UInt32.ofNat hz) with
  | none =>
    have hzero := congrArg UInt32.toNat (setPwmHz_eq_none.mp hset)
    rw [hnat] at hzero
    exact absurd hzero (Nat.ne_of_gt hpos)
  | some b' =>
    obtain ⟨period, hperiod, rfl⟩ := Option.map_eq_some_iff.mp hset
    have htoInt := periodNs_toInt hperiod
    rw [hnat] at htoInt
    exact ⟨_, rfl, rfl, rfl, period >>> 1, period, rfl, htoInt, half_toInt period⟩

theorem buzzerIoctl_sethz (b : Board) {hz : Int} (hrange : ¬ (hz < 0 ∨ 4000 < hz)) :
    (hz = 0 → buzzerIoctl b SET_BUZZER_HZ (UInt32.ofNat (hz % 4294967296).toNat) = none) ∧
      (hz ≠ 0 → ∃ b',
        buzzerIoctl b SET_BUZZER_HZ (UInt32.ofNat (hz % 4294967296).toNat) = some (0, b') ∧
          Sounds b' (some hz.toNat)) := by
  have harg : (hz % 4294967296).toNat = hz.toNat := by omega
  have hnat : (UInt32.ofNat hz.toNat).toNat = hz.toNat := by
    apply UInt32.toNat_ofNat_of_lt'
    show hz.toNat < 4294967296
    omega
  have hsmall : ¬ UInt32.ofNat hz.toNat > 4000 := by
    rw [gt_iff_lt, UInt32.lt_iff_toNat_lt, hnat]
    show ¬ 4000 < hz.toNat
    omega
  rw [harg, buzzerIoctl, if_pos rfl, if_neg hsmall]
  constructor
  · rintro rfl
    rfl
  · intro hne
    have hpos : 0 < hz.toNat := by omega
    have hle : hz.toNat ≤ 4000 := by omega
    obtain ⟨b', hset, hsounds⟩ := setPwmHz_sounds b hpos hle
    exact ⟨b', by rw [hset, Option.map_some], hsounds⟩

/-- What the arguments come to: a line that asks for a frequency in range calls the driver with it,
`stop` silences it, and every other line ends as it says. -/
theorem appArgs_eq (argv : List CStr) :
    (∃ hz, asks? argv = some hz ∧ ¬ (hz < 0 ∨ 4000 < hz) ∧
      appArgs argv = some (.inr ⟨SET_BUZZER_HZ, UInt32.ofNat (hz % 4294967296).toNat⟩) ∧
        ∀ t, toneMain t argv = (some hz.toNat, .done)) ∨
    (asks? argv = none ∧ appArgs argv = some (.inr ⟨STOP_BUZZER, 0⟩) ∧
      ∀ t, toneMain t argv = (none, .done)) ∨
    (asks? argv ≠ some 0 ∧ ∃ exit, appArgs argv = some (.inl exit) ∧
      ∀ t, toneMain t argv = (t, exit)) := by
  match argv with
  | [] | [_] | _ :: _ :: _ :: _ :: _ =>
    exact Or.inr (Or.inr ⟨by simp [asks?], .usage, rfl, fun _ => rfl⟩)
  | [prog, word] =>
    have hstop : 0 ∉ ascii ['s', 't', 'o', 'p'] := by decide
    obtain ⟨differs, hcmp, hiff⟩ := CStr.strcmp_literal hstop word
    by_cases hword : word.text = ascii ['s', 't', 'o', 'p']
    · refine Or.inr (Or.inl ⟨rfl, ?_, fun t => ?_⟩)
      · simp [appArgs, hcmp, hiff.mpr hword]
      · simp [toneMain, hword]
    · refine Or.inr (Or.inr ⟨by simp [asks?], .done, ?_, fun t => ?_⟩)
      · simp [appArgs, hcmp, mt hiff.mp hword]
      · simp [toneMain, hword]
  | [prog, word, number] =>
    have hsethz : 0 ∉ ascii ['s', 'e', 't', 'h', 'z'] := by decide
    obtain ⟨differs, hcmp, hiff⟩ := CStr.strcmp_literal hsethz word
    by_cases hword : word.text = ascii ['s', 'e', 't', 'h', 'z']
    case neg =>
      refine Or.inr (Or.inr ⟨by simp [asks?, hword], .usage, ?_, fun t => ?_⟩)
      · simp [appArgs, hcmp, mt hiff.mp hword]
      · simp [toneMain, asks?, hword]
    by_cases hrange : CStr.atoi number.text < 0 ∨ 4000 < CStr.atoi number.text
    · refine Or.inr (Or.inr ⟨?_, .range (CStr.atoi number.text), ?_, fun t => ?_⟩)
      · simp only [asks?, hword, if_true, ne_eq, Option.some.injEq]
        omega
      · simp [appArgs, hcmp, hiff.mpr hword, hrange]
      · simp [toneMain, asks?, hword, hrange]
    · refine Or.inl ⟨CStr.atoi number.text, ?_, hrange, ?_, fun t => ?_⟩
      · simp [asks?, hword]
      · simp [appArgs, hcmp, hiff.mpr hword, hrange]
      · simp [toneMain, asks?, hword, hrange]

/-- The driver is called with the frequency zero, and `set_pwm_hz` divides by it. -/
def DividesByZero (argv : List CStr) : Prop := appArgs argv = some (.inr ⟨SET_BUZZER_HZ, 0⟩)

/-- One run of the program sounds what its line says, unless that asks for the frequency zero. -/
theorem appMain_tone {b : Board} {t : Tone} (h : Sounds b t) (argv : List CStr) :
    (asks? argv = some 0 → DividesByZero argv ∧ appMain b argv = none) ∧
      (asks? argv ≠ some 0 → ∃ b', appMain b argv = some (b', (toneMain t argv).2) ∧
        Sounds b' (toneMain t argv).1) := by
  rcases appArgs_eq argv with ⟨hz, hasks, hrange, hargs, htone⟩ | ⟨hasks, hargs, htone⟩ |
    ⟨hasks, exit, hargs, htone⟩
  · obtain ⟨hzero, hne⟩ := buzzerIoctl_sethz b hrange
    rw [hasks, htone]
    simp only [Option.some.injEq, ne_eq]
    constructor
    · intro h0
      refine ⟨?_, by simp [appMain, hargs, hzero h0]⟩
      rw [DividesByZero, hargs, h0]
      rfl
    · intro h0
      obtain ⟨b', hio, hsounds⟩ := hne h0
      exact ⟨b', by simp [appMain, hargs, hio], hsounds⟩
  · have hio : buzzerIoctl b STOP_BUZZER 0 = some (0, stopBuzzer b) := rfl
    rw [hasks, htone]
    exact ⟨nofun, fun _ => ⟨stopBuzzer b, by simp [appMain, hargs, hio], stopBuzzer_sounds b⟩⟩
  · rw [htone]
    exact ⟨fun h0 => absurd h0 hasks, fun _ => ⟨b, by simp [appMain, hargs], h⟩⟩

theorem appSession_tone {b : Board} {t : Tone} (h : Sounds b t) (lines : List (List CStr)) :
    ∃ run left b', lines = run ++ left ∧ (∀ argv ∈ run, asks? argv ≠ some 0) ∧
      appSession b lines = (b', (toneSession t run).2, left) ∧ Sounds b' (toneSession t run).1 ∧
        ∀ argv ∈ left.head?, asks? argv = some 0 ∧ DividesByZero argv := by
  induction lines generalizing b t with
  | nil => exact ⟨[], [], b, rfl, nofun, rfl, h, nofun⟩
  | cons argv lines ih =>
    obtain ⟨hzero, hne⟩ := appMain_tone h argv
    by_cases h0 : asks? argv = some 0
    · obtain ⟨hdivides, hmain⟩ := hzero h0
      refine ⟨[], argv :: lines, b, rfl, nofun, by simp [appSession, hmain, toneSession], h, ?_⟩
      rintro other ⟨⟩
      exact ⟨h0, hdivides⟩
    · obtain ⟨b', hmain, hsounds⟩ := hne h0
      obtain ⟨run, left, b'', rfl, hall, hrest, hsounds', hleft⟩ := ih hsounds
      refine ⟨argv :: run, left, b'', rfl, List.forall_mem_cons.mpr ⟨h0, hall⟩, ?_, hsounds',
        hleft⟩
      simp [appSession, hmain, hrest, toneSession]

/-- Any session of the program on the buzzer after probe: as long as no line asks for the frequency
zero (as every line with `sethz` does that has no number behind it), each run ends as its line says
and the buzzer sounds what was asked for last; the first line that does ask for it makes the driver
divide by zero. -/
theorem buzzer_sessions (lines : List (List CStr)) :
    ∃ run left b, lines = run ++ left ∧ (∀ argv ∈ run, asks? argv ≠ some 0) ∧
      appSession probed lines = (b, (toneSession none run).2, left) ∧
      Sounds b (toneSession none run).1 ∧
        ∀ argv ∈ left.head?, asks? argv = some 0 ∧ DividesByZero argv := by
  have hprobed : Sounds probed none := ⟨rfl, rfl⟩
  exact appSession_tone hprobed lines

end KernelDrivers.Buzzer
