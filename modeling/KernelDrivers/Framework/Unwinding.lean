import KernelDrivers.Framework.ResourceLedger

namespace KernelDrivers.Framework

/-- The locals of a load: its return value and what it holds. -/
structure Frame (R : Type*) where
  ret : Int
  ledger : Ledger R

/-- How a round of the loop of a load ends, or the loop itself: it goes on, or it takes the error
path. -/
inductive Round (R : Type*) where
  | next (s : Frame R)
  | error (s : Frame R)

namespace Frame

variable {R : Type*} [DecidableEq R]

def acquire (s : Frame R) (r : R) : Frame R := { s with ledger := s.ledger.acquire r }

def release (s : Frame R) (r : R) : Frame R := { s with ledger := s.ledger.release r }

def releaseAll (s : Frame R) (rs : List R) : Frame R :=
  { s with ledger := s.ledger.releaseAll rs }

end Frame

namespace Unwinding

variable {R : Type*}

/-- What `k` complete rounds hold. -/
def held (undo : Nat → List R) (k : Nat) : List R := (List.range k).flatMap undo

/-- The same resources, the last round first. -/
def teardown (undo : Nat → List R) : Nat → List R
  | 0 => []
  | k + 1 => undo k ++ teardown undo k

/-- What a loop body does in round `i`: it is `complete` and holds what `undo i` gives back, or it
fails, and of what it has acquired it still holds `leak i`. -/
structure RoundSpec (body : Nat → Frame R → Round R) (undo : Nat → List R)
    (complete : Nat → Prop) (leak : Nat → List R) (n : Nat) : Prop where
  nodup : ∀ i < n, (undo i).Nodup
  apart : ∀ i < n, ∀ j < i, ∀ r ∈ undo i, r ∉ undo j
  leaks : ∀ i < n, leak i ⊆ undo i
  round : ∀ i < n, ∀ s rs, s.ledger.Holds rs → (∀ r ∈ undo i, r ∉ rs) →
    (complete i ∧ ∃ s', body i s = .next s' ∧ s'.ledger.Holds (rs ++ undo i) ∧
      s'.ledger.stray = s.ledger.stray ∧ s'.ledger.released = s.ledger.released) ∨
    (¬ complete i ∧ ∃ s', body i s = .error s' ∧ s'.ret < 0 ∧ s'.ledger.Holds (rs ++ leak i) ∧
      s'.ledger.stray = s.ledger.stray)

theorem held_succ (undo : Nat → List R) (k : Nat) : held undo (k + 1) = held undo k ++ undo k := by
  simp [held, List.range_succ]

theorem mem_held {undo : Nat → List R} {k : Nat} {r : R} :
    r ∈ held undo k ↔ ∃ i < k, r ∈ undo i := by
  simp [held]

theorem teardown_perm (undo : Nat → List R) (k : Nat) :
    (teardown undo k).Perm (held undo k) := by
  induction k with
  | zero => exact List.Perm.refl _
  | succ k ih =>
    rw [held_succ, teardown]
    exact List.perm_append_comm.trans (ih.append_right _)

namespace RoundSpec

variable {body : Nat → Frame R → Round R} {undo leak : Nat → List R} {complete : Nat → Prop}
  {n : Nat} (S : RoundSpec body undo complete leak n)

include S

theorem undo_fresh {k : Nat} (hk : k < n) : ∀ r ∈ undo k, r ∉ held undo k := by
  intro r hr hm
  obtain ⟨i, hi, hri⟩ := mem_held.mp hm
  exact S.apart k hk i hi r hr hri

theorem held_nodup {k : Nat} (hk : k ≤ n) : (held undo k).Nodup := by
  induction k with
  | zero => exact List.nodup_nil
  | succ k ih =>
    rw [held_succ]
    refine List.nodup_append.mpr ⟨ih (by omega), S.nodup k hk, ?_⟩
    rintro r hr q hq rfl
    exact S.undo_fresh hk r hq hr

end RoundSpec

/-- The two ways the loop ends: after `n` complete rounds, or with the first round that fails. -/
inductive Ended (undo : Nat → List R) (complete : Nat → Prop) (leak : Nat → List R) (n : Nat)
    (L : Ledger R) : Round R → Prop where
  | done (s : Frame R) (all : ∀ i < n, complete i) (holds : s.ledger.Holds (held undo n))
      (stray : s.ledger.stray = L.stray) (released : s.ledger.released = L.released) :
      Ended undo complete leak n L (.next s)
  | failed (s : Frame R) (k : Nat) (lt : k < n) (before : ∀ i < k, complete i)
      (fails : ¬ complete k) (ret : s.ret < 0) (holds : s.ledger.Holds (leak k))
      (stray : s.ledger.stray = L.stray) : Ended undo complete leak n L (.error s)

variable {body : Nat → Frame R → Round R} {undo leak : Nat → List R} {complete : Nat → Prop}
  {n : Nat}

theorem Ended.congr {L L' : Ledger R} {outcome : Round R} (h : Ended undo complete leak n L outcome)
    (hst : L.stray = L'.stray) (hrel : L.released = L'.released) :
    Ended undo complete leak n L' outcome := by
  cases h with
  | done s all holds stray released =>
    exact .done s all holds (stray.trans hst) (released.trans hrel)
  | failed s k lt before fails ret holds stray =>
    exact .failed s k lt before fails ret holds (stray.trans hst)

variable [DecidableEq R]

/-- `while (i--)` over the undoing of a round. -/
def unwind (undo : Nat → List R) : Nat → Frame R → Frame R
  | 0, s => s
  | i + 1, s => unwind undo i (s.releaseAll (undo i))

/-- The `for` loop with `left` rounds to go; a round that fails is followed by the unwinding of
those before it. -/
def loop (body : Nat → Frame R → Round R) (undo : Nat → List R) :
    Nat → Nat → Frame R → Round R
  | 0, _, s => .next s
  | left + 1, i, s =>
    match body i s with
    | .next s => loop body undo left (i + 1) s
    | .error s => .error (unwind undo i s)

theorem unwind_eq (undo : Nat → List R) (k : Nat) (s : Frame R) :
    unwind undo k s = s.releaseAll (teardown undo k) := by
  induction k generalizing s with
  | zero => rfl
  | succ k ih =>
    rw [unwind, ih, teardown]
    simp only [Frame.releaseAll, Ledger.releaseAll, List.foldl_append]

/-- The error path of round `k` gives back the rounds before it, and nothing it does not hold. -/
theorem RoundSpec.unwind_spec (S : RoundSpec body undo complete leak n) {k : Nat} (hk : k < n)
    {s : Frame R} (hs : s.ledger.Holds (held undo k ++ leak k)) :
    (unwind undo k s).ret = s.ret ∧ (unwind undo k s).ledger.Holds (leak k) ∧
      (unwind undo k s).ledger.stray = s.ledger.stray := by
  have hperm := teardown_perm undo k
  have hswap : s.ledger.Holds (leak k ++ teardown undo k) := hs.congr fun r => by
    rw [List.mem_append, List.mem_append, hperm.mem_iff, or_comm]
  have hnodup : (teardown undo k).Nodup := hperm.nodup_iff.mpr (S.held_nodup (Nat.le_of_lt hk))
  have hfresh : ∀ r ∈ teardown undo k, r ∉ leak k := fun r hr hl =>
    S.undo_fresh hk r (S.leaks k hk hl) (hperm.mem_iff.mp hr)
  obtain ⟨hh, hst, -⟩ := hswap.releaseAll hnodup hfresh
  rw [unwind_eq]
  exact ⟨rfl, hh, hst⟩

/-- The loop, entered with `i` complete rounds. -/
theorem RoundSpec.loop_ended (S : RoundSpec body undo complete leak n) (left i : Nat)
    (s : Frame R) (hn : i + left = n) (hdone : ∀ j < i, complete j)
    (hs : s.ledger.Holds (held undo i)) :
    Ended undo complete leak n s.ledger (loop body undo left i s) := by
  induction left generalizing i s with
  | zero =>
    obtain rfl : i = n := hn
    exact .done s hdone hs rfl rfl
  | succ left ih =>
    have hi : i < n := by omega
    rw [loop]
    rcases S.round i hi s _ hs (S.undo_fresh hi) with
      ⟨hok, s', hb, hh, hst, hrel⟩ | ⟨hno, s', hb, hret, hh, hst⟩
    · have hdone' : ∀ j < i + 1, complete j := by
        intro j hj
        rcases Nat.lt_succ_iff_lt_or_eq.mp hj with h | rfl
        · exact hdone j h
        · exact hok
      rw [hb]
      exact (ih (i + 1) s' (by omega) hdone' (by rwa [held_succ])).congr hst hrel
    · obtain ⟨hret', hh', hst'⟩ := S.unwind_spec hi hh
      rw [hb]
      exact .failed _ i hi hdone hno (hret' ▸ hret) hh' (hst'.trans hst)

/-- The whole loop. -/
theorem RoundSpec.run_ended (S : RoundSpec body undo complete leak n) (ret : Int) :
    Ended undo complete leak n Ledger.empty (loop body undo n 0 ⟨ret, Ledger.empty⟩) :=
  S.loop_ended n 0 ⟨ret, Ledger.empty⟩ (Nat.zero_add n) (fun _ h => absurd h (Nat.not_lt_zero _))
    Ledger.holds_empty

end Unwinding

end KernelDrivers.Framework
