import Mathlib.Algebra.BigOperators.Ring.Finset

namespace KernelDrivers.Framework

/-- The number of processes whose program counter satisfies `q`. -/
def countWhere {P α : Type*} [Fintype P] (q : α → Bool) (pc : P → α) : Nat :=
  (Finset.univ.filter fun p => q (pc p) = true).card

variable {P α : Type*} [Fintype P]

theorem countWhere_eq_zero {q : α → Bool} {pc : P → α} (h : ∀ p, q (pc p) = false) :
    countWhere q pc = 0 := by
  simp [countWhere, h]

theorem countWhere_le (q : α → Bool) (pc : P → α) : countWhere q pc ≤ Fintype.card P :=
  Finset.card_le_univ _

/-- One process moving from `pc p` to `v` changes the count by what the two differ in. -/
theorem countWhere_update [DecidableEq P] (q : α → Bool) (pc : P → α) (p : P) (v : α) :
    countWhere q (Function.update pc p v) + (q (pc p)).toNat = countWhere q pc + (q v).toNat := by
  have hsum (f : P → α) : countWhere q f = ∑ x, (q (f x)).toNat := by
    rw [countWhere, Finset.card_filter]
    refine Finset.sum_congr rfl fun x _ => ?_
    cases q (f x) <;> rfl
  have hupd : (fun x => (q (Function.update pc p v x)).toNat) =
      Function.update (fun x => (q (pc x)).toNat) p (q v).toNat := by
    funext x
    by_cases hx : x = p
    · subst hx
      simp
    · simp [Function.update_of_ne hx]
  have hrest := Finset.sum_erase_add Finset.univ (fun x => (q (pc x)).toNat) (Finset.mem_univ p)
  rw [hsum, hsum, hupd, Finset.sum_update_of_mem (Finset.mem_univ p), ← hrest,
    Finset.sdiff_singleton_eq_erase]
  omega

end KernelDrivers.Framework
