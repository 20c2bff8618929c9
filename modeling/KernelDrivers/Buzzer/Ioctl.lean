import Mathlib.Data.BitVec
import KernelDrivers.Framework.Machine
import KernelDrivers.Kernel.Basic

namespace KernelDrivers.Buzzer

open Framework Kernel

/-- `_IOC`: the direction, the size, the type and the number. -/
def ioc (dir size type nr : UInt32) : UInt32 := dir <<< 30 ||| size <<< 16 ||| type <<< 8 ||| nr

/-- `_IOW(type, nr, int)`. -/
def iow (type nr : UInt32) : UInt32 := ioc 1 4 type nr

/-- `_IO(type, nr)`. -/
def io (type nr : UInt32) : UInt32 := ioc 0 0 type nr

/-- `'B'`. -/
def BUZZER_TYPE : UInt32 := 66

def SET_BUZZER_HZ : UInt32 := iow BUZZER_TYPE 0

def STOP_BUZZER : UInt32 := io BUZZER_TYPE 1

example : SET_BUZZER_HZ = 0x40044200 ∧ STOP_BUZZER = 0x4201 := by decide

def BEEP_TYPE : UInt32 := 66

def BEEP_SET_HZ : UInt32 := iow BEEP_TYPE 0

/-- What the pin is switched to. -/
inductive Pin where
  | output (value : Int)
  | sfn (func : Nat)
  deriving DecidableEq

/-- The PWM device and its pin; the configuration is the duty and the period, in nanoseconds. -/
structure Board where
  config : Option (Int32 × Int32)
  enabled : Bool
  pin : Pin
  deriving DecidableEq

namespace Board

def pwmConfig (b : Board) (duty period : Int32) : Board := { b with config := some (duty, period) }

def pwmEnable (b : Board) : Board := { b with enabled := true }

def pwmDisable (b : Board) : Board := { b with enabled := false }

def gpioCfgpin (b : Board) (pin : Pin) : Board := { b with pin := pin }

def gpioDirectionOutput (b : Board) (value : Int) : Board := { b with pin := .output value }

end Board

/-- An unsigned long of the 32-bit target. -/
def NSPERSEC : UInt32 := 1000000000

/-- The quotient is stored in an int. There is no outcome of a division by zero. -/
def periodNs (hz : UInt32) : Option Int32 := if hz = 0 then none else some (NSPERSEC / hz).toInt32

def setPwmHz (b : Board) (hz : UInt32) : Option Board :=
  (periodNs hz).map fun (period_ns : Int32) =>
    ((b.pwmConfig (period_ns >>> 1) period_ns).gpioCfgpin (.sfn 2)).pwmEnable

def stopBuzzer (b : Board) : Board := b.pwmDisable.gpioDirectionOutput 0

def buzzerIoctl (b : Board) (request arg : UInt32) : Option (Int × Board) :=
  if request = SET_BUZZER_HZ then
    if arg > 4000 then some (-einval, b) else (setPwmHz b arg).map fun b => (0, b)
  else if request = STOP_BUZZER then some (0, stopBuzzer b)
  else some (0, b)

/-- The int divides an unsigned long, so it is converted again. -/
def beepSetHz (b : Board) (hz : Int32) : Option Board :=
  (periodNs hz.toUInt32).map fun (period : Int32) =>
    ((b.pwmConfig (period >>> 1) period).pwmEnable).gpioCfgpin (.sfn 2)

def beepMute (b : Board) : Board := b.pwmDisable.gpioDirectionOutput 0

/-- `BEEP_MUTE` and all other requests mute. -/
def beepUnlockedIoctl (b : Board) (request arg : UInt32) : Option (Int × Board) :=
  if request = BEEP_SET_HZ then
    if arg > 4000 then some (-einval, b) else (beepSetHz b arg.toInt32).map fun b => (0, b)
  else some (0, beepMute b)

/-- After probe: the pin is an output, and the PWM device has only been requested. -/
def probed : Board := ⟨none, false, .output 0⟩

structure Call where
  request : UInt32
  arg : UInt32

inductive Driver where
  | buzzer
  | beep

namespace Driver

def ioctl : Driver → Board → UInt32 → UInt32 → Option (Int × Board)
  | buzzer => buzzerIoctl
  | beep => beepUnlockedIoctl

def setHz : Driver → UInt32
  | buzzer => SET_BUZZER_HZ
  | beep => BEEP_SET_HZ

variable (drv : Driver)

/-- The calls one after the other; after a division by zero there is no state. -/
def machine : Machine (Option Board) Call where
  init := some probed
  step s call := s.bind fun b => (drv.ioctl b call.request call.arg).map Prod.snd

/-- The configuration that belongs to a frequency. -/
def Programs (b : Board) (hz : UInt32) : Prop :=
  ∃ duty period, b.config = some (duty, period) ∧ period.toInt = 1000000000 / (hz.toNat : Int) ∧
    0 < period.toInt ∧ duty.toInt = period.toInt / 2

/-- The PWM is enabled exactly when it has the pin. -/
def InStep (b : Board) : Prop := b.enabled = true ↔ b.pin = .sfn 2

/-- A call has an outcome, changes nothing when it fails, programs the frequency that it accepts and
leaves the pin in step with the PWM. -/
def Correct (s : Option Board) (call : Call) : Prop :=
  ∃ b ret b', s = some b ∧ drv.ioctl b call.request call.arg = some (ret, b') ∧
    (ret < 0 → b' = b) ∧ (call.request = drv.setHz → 0 ≤ ret → Programs b' call.arg) ∧ InStep b'

/-- A request for the frequency zero, which the upper bound lets through. -/
def AsksZero (call : Call) : Prop := call.request = drv.setHz ∧ call.arg = 0

end Driver

theorem half_toInt (period : Int32) : (period >>> 1).toInt = period.toInt / 2 := by
  have hshift : (period >>> 1).toBitVec = period.toBitVec.sshiftRight 1 := rfl
  rw [← Int32.toInt_toBitVec, hshift, BitVec.toInt_sshiftRight, Int.shiftRight_eq_div_pow]
  rfl

theorem periodNs_eq_none {hz : UInt32} : periodNs hz = none ↔ hz = 0 := by
  unfold periodNs
  split <;> simp_all

theorem periodNs_ne_zero {hz : UInt32} {period : Int32} (h : periodNs hz = some period) :
    hz ≠ 0 := by
  intro h0
  rw [periodNs_eq_none.mpr h0] at h
  cases h

/-- The quotient fits an int, whatever the divisor. -/
theorem periodNs_toInt {hz : UInt32} {period : Int32} (h : periodNs hz = some period) :
    period.toInt = 1000000000 / (hz.toNat : Int) := by
  rw [periodNs, if_neg (periodNs_ne_zero h), Option.some_inj] at h
  subst h
  have hquot : (NSPERSEC / hz).toNat = 1000000000 / hz.toNat := UInt32.toNat_div _ _
  have hfits : 1000000000 / hz.toNat ≤ 1000000000 := Nat.div_le_self _ _
  have htoInt : (NSPERSEC / hz).toInt32.toInt = (NSPERSEC / hz).toBitVec.toInt := rfl
  rw [htoInt, BitVec.toInt_eq_toNat_of_lt]
  · show ((NSPERSEC / hz).toNat : Int) = _
    rw [hquot, Int.natCast_ediv]
    rfl
  · show 2 * (NSPERSEC / hz).toNat < _
    omega

/-- The driver beep gets to the same board, though the other way round. -/
theorem beepSetHz_eq (b : Board) (hz : UInt32) : beepSetHz b hz.toInt32 = setPwmHz b hz := by
  rw [beepSetHz, setPwmHz, UInt32.toUInt32_toInt32]
  rfl

theorem setPwmHz_eq_none {b : Board} {hz : UInt32} : setPwmHz b hz = none ↔ hz = 0 := by
  rw [setPwmHz, Option.map_eq_none_iff, periodNs_eq_none]

namespace Driver

theorem probed_inStep : InStep probed := iff_of_false Bool.false_ne_true nofun

theorem stopBuzzer_inStep (b : Board) : InStep (stopBuzzer b) := by
  simp [InStep, stopBuzzer, Board.pwmDisable, Board.gpioDirectionOutput]

theorem setPwmHz_spec {b b' : Board} {hz : UInt32} (hrange : hz ≤ 4000)
    (h : setPwmHz b hz = some b') : Programs b' hz ∧ InStep b' := by
  obtain ⟨period, hperiod, rfl⟩ := Option.map_eq_some_iff.mp h
  have htoInt := periodNs_toInt hperiod
  constructor
  · refine ⟨period >>> 1, period, rfl, htoInt, ?_, half_toInt period⟩
    have hpos : 0 < (hz.toNat : Int) := by
      have hne := mt UInt32.toNat_inj.mp (periodNs_ne_zero hperiod)
      exact_mod_cast Nat.pos_of_ne_zero hne
    have hle : (hz.toNat : Int) ≤ 4000 := by exact_mod_cast UInt32.le_iff_toNat_le.mp hrange
    rw [htoInt]
    exact Int.le_ediv_of_mul_le hpos (by omega)
  · exact iff_of_true rfl rfl

/-- Both drivers answer the request for a frequency in the same way. -/
theorem ioctl_setHz (drv : Driver) (b : Board) (arg : UInt32) :
    drv.ioctl b drv.setHz arg =
      if arg > 4000 then some (-einval, b) else (setPwmHz b arg).map fun b => (0, b) := by
  cases drv with
  | buzzer => rw [ioctl, setHz, buzzerIoctl, if_pos rfl]
  | beep => rw [ioctl, setHz, beepUnlockedIoctl, if_pos rfl, beepSetHz_eq]

/-- Any other request stops the buzzer or does nothing, and succeeds. -/
theorem ioctl_other (drv : Driver) (b : Board) {request : UInt32} (arg : UInt32)
    (h : request ≠ drv.setHz) :
    ∃ b', (b' = b ∨ b' = stopBuzzer b) ∧ drv.ioctl b request arg = some (0, b') := by
  cases drv with
  | buzzer =>
    have hother : buzzerIoctl b request arg =
        if request = STOP_BUZZER then some (0, stopBuzzer b) else some (0, b) := if_neg h
    by_cases hstop : request = STOP_BUZZER
    · exact ⟨stopBuzzer b, Or.inr rfl, hother.trans (if_pos hstop)⟩
    · exact ⟨b, Or.inl rfl, hother.trans (if_neg hstop)⟩
  | beep => exact ⟨beepMute b, Or.inr rfl, if_neg h⟩

/-- A call that succeeds with a board that is in step is right when the board has the frequency
asked for. -/
theorem Correct.of_success {drv : Driver} {b b' : Board} {request arg : UInt32}
    (hio : drv.ioctl b request arg = some (0, b'))
    (hprog : request = drv.setHz → Programs b' arg) (hstep : InStep b') :
    drv.Correct (some b) ⟨request, arg⟩ :=
  ⟨b, 0, b', rfl, hio, fun hret => absurd hret (by decide), fun h _ => hprog h, hstep⟩

/-- Every call but one for the frequency zero is right, and that one has no outcome. -/
theorem correct_iff (drv : Driver) {b : Board} (hb : InStep b) (call : Call) :
    drv.Correct (some b) call ↔ ¬ drv.AsksZero call := by
  obtain ⟨request, arg⟩ := call
  by_cases hset : request = drv.setHz
  · subst hset
    have hio := drv.ioctl_setHz b arg
    by_cases hrange : 4000 < arg
    · rw [if_pos hrange] at hio
      refine iff_of_true ⟨b, _, b, rfl, hio, fun _ => rfl, ?_, hb⟩ ?_
      · exact fun _ hret => absurd hret (by decide)
      · rintro ⟨-, rfl⟩
        exact absurd hrange (by decide)
    · rw [if_neg hrange] at hio
      cases hb' : setPwmHz b arg with
      | none =>
        rw [hb'] at hio
        refine iff_of_false ?_ (not_not.mpr ⟨rfl, setPwmHz_eq_none.mp hb'⟩)
        rintro ⟨b1, ret, b2, heq, hout, -⟩
        obtain rfl : b = b1 := Option.some.inj heq
        rw [hio] at hout
        cases hout
      | some b' =>
        rw [hb'] at hio
        obtain ⟨hprog, hstep⟩ := setPwmHz_spec (UInt32.not_lt.mp hrange) hb'
        refine iff_of_true (Correct.of_success hio (fun _ => hprog) hstep) ?_
        rintro ⟨-, h0⟩
        rw [setPwmHz_eq_none.mpr h0] at hb'
        cases hb'
  · obtain ⟨b', hb', hio⟩ := drv.ioctl_other b arg hset
    refine iff_of_true (Correct.of_success hio (fun h => absurd h hset) ?_) fun h => hset h.1
    rcases hb' with rfl | rfl
    · exact hb
    · exact stopBuzzer_inStep b

/-- A call that is right leads to a board that is in step. -/
theorem Correct.step {drv : Driver} {s : Option Board} {call : Call} (h : drv.Correct s call) :
    ∃ b, drv.machine.step s call = some b ∧ InStep b := by
  obtain ⟨b, ret, b', rfl, hio, -, -, hstep⟩ := h
  refine ⟨b', ?_, hstep⟩
  show (drv.ioctl b call.request call.arg).map Prod.snd = some b'
  rw [hio, Option.map_some]

end Driver

/-- In every sequence of calls after probe all are right if and only if none of them asks for the
frequency zero. -/
theorem ioctl_sequences_correct (drv : Driver) (calls : List Call) :
    drv.machine.Meets drv.Correct calls ↔
      ∀ call ∈ calls, ¬ (call.request = drv.setHz ∧ call.arg = 0) := by
  rw [← Machine.meets_actions (M := drv.machine)]
  apply Machine.meets_congr (I := fun s => ∃ b, s = some b ∧ Driver.InStep b)
  · exact ⟨probed, rfl, Driver.probed_inStep⟩
  · rintro s call hcall ⟨b, rfl, hb⟩
    exact ((drv.correct_iff hb call).mpr hcall).step
  · rintro s call ⟨b, rfl, hb⟩
    exact drv.correct_iff hb call

/-- The frequency zero is not refused. -/
theorem ioctl_zero_hz_divides :
    ¬ Driver.buzzer.machine.Meets Driver.buzzer.Correct [⟨SET_BUZZER_HZ, 0⟩] := by
  rintro ⟨⟨b, ret, b', hb, hio, -⟩, -⟩
  obtain rfl : probed = b := Option.some.inj hb
  have hnone : Driver.buzzer.ioctl probed SET_BUZZER_HZ 0 = none := by decide
  rw [hnone] at hio
  cases hio

end KernelDrivers.Buzzer
