import Mathlib.Data.Int.Basic
import KernelDrivers.Kernel.Basic

namespace KernelDrivers.Keys

open Kernel

/-- The four keys of the board; `idx` is `pdev->num`. -/
abbrev Key := Fin 4

/-- What a key event changes: the event counters, the states reported to user space and the
mark that an event has happened. -/
structure KeyDev where
  cnt : Key → Int32
  kbuf : Key → Byte
  flag : Int

/-- The values in which the two key drivers differ: what a key's `kbuf` starts with and
what it becomes from the event counter, and the condition a reader waits for. -/
structure Driver where
  initial : Byte
  encode : Int32 → Byte
  awake : Int → Bool
  awake_set : awake 1 = true
  awake_clear : awake 0 = false

namespace Driver

/-- The device of a driver after load. -/
def fresh (drv : Driver) : KeyDev := ⟨fun _ => 0, fun _ => drv.initial, 0⟩

/-- The handler of an event of key `idx`. -/
def event (drv : Driver) (dev : KeyDev) (idx : Key) : KeyDev :=
  let cnt := Function.update dev.cnt idx (dev.cnt idx + 1)
  { cnt, kbuf := Function.update dev.kbuf idx (drv.encode (cnt idx)), flag := 1 }

end Driver

/-- keys/key.c; `char` is unsigned on the target. -/
def keys : Driver where
  initial := 0
  encode cnt := UInt8.ofInt (cnt % 2).toInt
  awake key_dnup_flag := key_dnup_flag == 1
  awake_set := rfl
  awake_clear := rfl

/-- kernel_code_v1/keys/key.c, which reports the characters `0` and `1`. -/
def keysV1 : Driver where
  initial := 48
  encode cnt := UInt8.ofInt ((cnt % 2).toInt + 48)
  awake dnup_flg := dnup_flg != 0
  awake_set := rfl
  awake_clear := rfl

def doBhKey : KeyDev → Key → KeyDev := keys.event

def doTimer : KeyDev → Key → KeyDev := keysV1.event

/-- The remainder of C, which takes the sign of the dividend. -/
theorem tmod_two (x : Int) :
    x.tmod 2 = if x % 2 = 0 then 0 else if x < 0 then -1 else 1 := by
  rw [Int.tmod_eq_emod]
  by_cases h0 : x % 2 = 0
  · rw [if_pos h0, if_pos (Or.inr (Int.dvd_of_emod_eq_zero h0)), h0]
    rfl
  · have hd : ¬ (2 : Int) ∣ x := fun h => h0 (Int.emod_eq_zero_of_dvd h)
    have habs : (2 : Int).natAbs = 2 := rfl
    rw [if_neg h0]
    by_cases hx : x < 0
    · rw [if_pos hx, if_neg (by omega)]
      omega
    · rw [if_neg hx, if_pos (by omega)]
      omega

/-- The counter wraps at the end of its range. -/
theorem toInt_succ (cnt : Int32) :
    (cnt + 1).toInt = if cnt.toInt = 2147483647 then -2147483648 else cnt.toInt + 1 := by
  have hlt := cnt.toInt_lt
  have hle := cnt.le_toInt
  have h1 : (1 : Int32).toInt = 1 := rfl
  rw [Int32.toInt_add, h1]
  by_cases h : cnt.toInt = 2147483647
  · rw [if_pos h, h]
    decide
  · rw [if_neg h, Int.bmod_eq_of_le (by omega) (by omega)]

/-- What `cnt++` followed by `cnt % 2` gives. -/
theorem succ_mod_two (cnt : Int32) : ((cnt + 1) % 2).toInt =
    if cnt.toInt % 2 = 1 then 0 else if cnt.toInt < 0 then -1 else 1 := by
  have hlt := cnt.toInt_lt
  have hle := cnt.le_toInt
  have h2 : (2 : Int32).toInt = 2 := rfl
  rw [Int32.toInt_mod, h2, tmod_two, toInt_succ]
  by_cases hodd : cnt.toInt % 2 = 1
  · rw [if_pos hodd, if_pos]
    by_cases h : cnt.toInt = 2147483647
    · rw [if_pos h]
      decide
    · rw [if_neg h]
      omega
  · have h : cnt.toInt ≠ 2147483647 := by omega
    rw [if_neg hodd, if_neg h, if_neg (by omega)]
    by_cases hneg : cnt.toInt < 0
    · rw [if_pos hneg, if_pos (by omega)]
    · rw [if_neg hneg, if_neg (by omega)]

end KernelDrivers.Keys
