import Mathlib.Logic.Basic

namespace KernelDrivers.Framework.Register

variable {w k : Nat}

/-- The register `x` with its bit `i` set to `b`. -/
def assign (x : BitVec w) (i : Nat) (b : Bool) : BitVec w :=
  if b then x ||| BitVec.twoPow w i else x &&& ~~~BitVec.twoPow w i

/-- What an access of `k` bits at the register's address reads. -/
def low (k : Nat) (x : BitVec w) : BitVec k := x.setWidth k

/-- The register after an access of `k` bits has written `v`. -/
def putLow (v : BitVec k) (x : BitVec w) : BitVec w := (x >>> k) <<< k ||| v.setWidth w

theorem getLsbD_assign_self (x : BitVec w) {i : Nat} (hi : i < w) (b : Bool) :
    (assign x i b).getLsbD i = b := by
  cases b with
  | true => simp [assign, hi]
  | false => simp [assign, hi]

theorem getLsbD_assign_of_ne (x : BitVec w) {i j : Nat} (h : j ≠ i) (b : Bool) :
    (assign x i b).getLsbD j = x.getLsbD j := by
  cases b with
  | true => simp [assign, BitVec.getLsbD_twoPow, Ne.symm h]
  | false =>
    by_cases hj : j < w
    · simp [assign, h, hj]
    · rw [BitVec.getLsbD_of_ge _ _ (by omega), BitVec.getLsbD_of_ge _ _ (by omega)]

theorem assign_true (x : BitVec w) (i : Nat) : assign x i true = x ||| (1#w <<< i) := by
  rw [← BitVec.twoPow_eq]
  rfl

theorem assign_false (x : BitVec w) (i : Nat) : assign x i false = x &&& ~~~(1#w <<< i) := by
  rw [← BitVec.twoPow_eq]
  rfl

/-- A test of one bit through its mask. -/
theorem and_bit_ne_zero (x : BitVec w) {i : Nat} (hi : i < w) :
    x &&& (1#w <<< i) ≠ 0 ↔ x.getLsbD i = true := by
  rw [← BitVec.twoPow_eq, BitVec.and_twoPow]
  cases x.getLsbD i with
  | false => simp
  | true =>
    have hbit : (BitVec.twoPow w i).getLsbD i = true := by simp [hi]
    have hne : BitVec.twoPow w i ≠ 0 := by
      intro h
      rw [h] at hbit
      simp at hbit
    simpa using hne

theorem getLsbD_low (x : BitVec w) {j : Nat} (hj : j < k) : (low k x).getLsbD j = x.getLsbD j := by
  simp [low, hj]

theorem getLsbD_putLow_of_lt (v : BitVec k) (x : BitVec w) {j : Nat} (hj : j < k) (hw : k ≤ w) :
    (putLow v x).getLsbD j = v.getLsbD j := by
  simp [putLow, hj, show j < w by omega]

/-- An access leaves the bits beyond its width alone. -/
theorem getLsbD_putLow_of_ge (v : BitVec k) (x : BitVec w) {j : Nat} (hj : k ≤ j) :
    (putLow v x).getLsbD j = x.getLsbD j := by
  by_cases hw : j < w
  · have hv : v.getLsbD j = false := BitVec.getLsbD_of_ge v j hj
    have hlt : ¬ j < k := by omega
    simp [putLow, hw, hlt, hv, Nat.add_sub_cancel' hj]
  · rw [BitVec.getLsbD_of_ge _ _ (by omega), BitVec.getLsbD_of_ge _ _ (by omega)]

/-- A narrow read-modify-write of a bit is a wide one. -/
theorem putLow_assign_low (x : BitVec w) {i : Nat} (hi : i < k) (hw : k ≤ w) (b : Bool) :
    putLow (assign (low k x) i b) x = assign x i b := by
  apply BitVec.eq_of_getLsbD_eq
  intro j _
  by_cases hj : j < k
  · rw [getLsbD_putLow_of_lt _ _ hj hw]
    by_cases h : j = i
    · subst h
      rw [getLsbD_assign_self _ hi, getLsbD_assign_self _ (by omega)]
    · rw [getLsbD_assign_of_ne _ h, getLsbD_assign_of_ne _ h, getLsbD_low _ hj]
  · rw [getLsbD_putLow_of_ge _ _ (by omega), getLsbD_assign_of_ne _ (by omega)]

/-- A narrow access that sets the bits of a mask sets those of the register. -/
theorem putLow_or_low (x : BitVec w) (m : BitVec k) (hw : k ≤ w) :
    putLow (low k x ||| m) x = x ||| m.setWidth w := by
  apply BitVec.eq_of_getLsbD_eq
  intro j hjw
  by_cases hj : j < k
  · rw [getLsbD_putLow_of_lt _ _ hj hw, BitVec.getLsbD_or, getLsbD_low _ hj]
    simp [hjw]
  · have hm : m.getLsbD j = false := BitVec.getLsbD_of_ge m j (by omega)
    rw [getLsbD_putLow_of_ge _ _ (by omega)]
    simp [hm]

/-- The promotion of a narrow operand to `w` bits and the return to its own width change nothing
about the bit that is set or cleared. -/
theorem low_assign_promoted (x : BitVec k) {i : Nat} (hi : i < k) (hw : k ≤ w) (b : Bool) :
    low k (assign (x.setWidth w) i b) = assign x i b := by
  apply BitVec.eq_of_getLsbD_eq
  intro j hj
  rw [getLsbD_low _ hj]
  by_cases h : j = i
  · subst h
    rw [getLsbD_assign_self _ (by omega), getLsbD_assign_self _ hi]
  · rw [getLsbD_assign_of_ne _ h, getLsbD_assign_of_ne _ h]
    simp [show j < w by omega]

end KernelDrivers.Framework.Register
