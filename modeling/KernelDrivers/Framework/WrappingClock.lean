import Mathlib.Data.BitVec
import Mathlib.Tactic.Ring

namespace KernelDrivers.Framework

namespace WrappingClock

variable {w : Nat}

/-- `time_before`: the difference of two clock values is negative as a signed number. -/
def before (a b : BitVec w) : Bool := (a - b).toInt < 0

/-- The clock after a number of ticks. -/
def after (start : BitVec w) (ticks : Nat) : BitVec w := start + BitVec.ofNat w ticks

theorem after_sub_after (start : BitVec w) (e d : Nat) :
    after start e - after start d = (((e : Int) - d : Int) : BitVec w) := by
  rw [after, after, ← BitVec.natCast_eq_ofNat, ← BitVec.natCast_eq_ofNat]
  push_cast
  ring

/-- Two readings less than half a round apart are compared by the ticks, wherever the clock
started. -/
theorem before_after_iff (start : BitVec w) {e d : Nat} (hpast : 2 * d < 2 * e + 2 ^ w)
    (hfuture : 2 * e < 2 * d + 2 ^ w) :
    before (after start e) (after start d) ↔ e < d := by
  have hpast' : 2 * (d : Int) < 2 * e + ((2 ^ w : Nat) : Int) := by exact_mod_cast hpast
  have hfuture' : 2 * (e : Int) < 2 * d + ((2 ^ w : Nat) : Int) := by exact_mod_cast hfuture
  have hdiff : ((e : Int) - d).bmod (2 ^ w) = (e : Int) - d := by
    apply Int.bmod_eq_of_le_mul_two
    · omega
    · omega
  rw [before, decide_eq_true_iff, after_sub_after, BitVec.toInt_intCast, hdiff]
  omega

end WrappingClock

end KernelDrivers.Framework
