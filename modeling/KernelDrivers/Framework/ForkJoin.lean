import Mathlib.Algebra.BigOperators.Group.Finset.Basic
import Mathlib.Algebra.Order.BigOperators.Group.Finset
import KernelDrivers.Framework.Machine

namespace KernelDrivers.Framework

/-- What the children of a program do with what they share: each of them begins at `first`, and a
step either leads on or ends the child with a report. -/
structure Children (σ γ ε ρ : Type*) where
  first : γ
  step : σ → Nat → γ → ε → σ × (γ ⊕ ρ)

inductive ParentPc where
  | fork
  | wait
  | returned

/-- A program that forks its children in a loop and waits for them in another one; `forks` is
false when a `fork` has failed. -/
structure Family (σ γ ρ : Type*) where
  shared : σ
  child : Nat → Option γ
  forked : Nat
  i : Nat
  parent : ParentPc
  forks : Bool
  out : List (Nat × ρ)

inductive FamilyAct (ε : Type*) where
  | parent (forks : Bool)
  | child (p : Nat) (env : ε)

namespace Family

variable {σ γ ε ρ : Type*} (C : Children σ γ ε ρ) (limit : Nat)

/-- `for (i = 0; i < limit; i++) pid[i] = fork()` and `while (i--) waitpid(pid[i])`. -/
def runParent (s : Family σ γ ρ) (forks : Bool) : Family σ γ ρ :=
  match s.parent with
  | .fork =>
    if s.i < limit then
      if forks then
        { s with
          child := Function.update s.child s.i (some C.first), forked := s.i + 1, i := s.i + 1 }
      else { s with parent := .wait, forks := false }
    else { s with parent := .wait }
  | .wait =>
    if s.i = 0 then { s with parent := .returned }
    else if (s.child (s.i - 1)).isNone then { s with i := s.i - 1 }
    else s
  | .returned => s

def runChild (s : Family σ γ ρ) (p : Nat) (env : ε) : Family σ γ ρ :=
  match s.child p with
  | none => s
  | some c =>
    match C.step s.shared p c env with
    | (shared, .inl c) => { s with shared, child := Function.update s.child p (some c) }
    | (shared, .inr r) =>
      { s with shared, child := Function.update s.child p none, out := s.out ++ [(p, r)] }

def step (s : Family σ γ ρ) : FamilyAct ε → Family σ γ ρ
  | .parent forks => s.runParent C limit forks
  | .child p env => s.runChild C p env

def start (shared : σ) : Family σ γ ρ := ⟨shared, fun _ => none, 0, 0, .fork, true, []⟩

def machine (shared : σ) : Machine (Family σ γ ρ) (FamilyAct ε) := ⟨start shared, step C limit⟩

/-- The children that have been forked and do not run any more are those that have reported, each
of them once, and the parent has waited for all children from `i` on. -/
structure Tidy (limit : Nat) (s : Family σ γ ρ) : Prop where
  unborn : ∀ p, s.forked ≤ p → s.child p = none
  reported : ∀ p, p ∈ s.out.map Prod.fst ↔ p < s.forked ∧ s.child p = none
  once : (s.out.map Prod.fst).Nodup
  forking : ∀ _ : s.parent = .fork, s.i = s.forked
  le : s.i ≤ s.forked
  waited : ∀ p, s.i ≤ p → s.child p = none
  returned : s.parent = .returned → s.i = 0
  bounded : s.forked ≤ limit
  complete : s.parent = .fork ∨ (s.forks = true → s.forked = limit)

variable {C limit}

theorem start_tidy (shared : σ) : (start shared : Family σ γ ρ).Tidy limit where
  unborn _ _ := rfl
  reported p := by simp [start]
  once := List.nodup_nil
  forking _ := rfl
  le := Nat.le_refl 0
  waited _ _ := rfl
  returned h := by simp [start] at h
  bounded := Nat.zero_le limit
  complete := Or.inl rfl

theorem runParent_tidy {s : Family σ γ ρ} (h : s.Tidy limit) (forks : Bool) :
    (s.runParent C limit forks).Tidy limit := by
  unfold runParent
  split
  case h_1 hfork =>
    have hi := h.forking hfork
    by_cases hlt : s.i < limit
    · cases forks with
      | false =>
        simp only [hlt, if_true, Bool.false_eq_true, if_false]
        exact ⟨h.unborn, h.reported, h.once, by simp, h.le, h.waited, by simp, h.bounded,
          by simp⟩
      | true =>
        simp only [hlt, if_true]
        have hother (p : Nat) (hp : s.i + 1 ≤ p) :
            Function.update s.child s.i (some C.first) p = none := by
          rw [Function.update_of_ne (by omega)]
          exact h.unborn p (by omega)
        refine ⟨hother, ?_, h.once, fun _ => rfl, Nat.le_refl _, hother, ?_, hlt, Or.inl hfork⟩
        · intro p
          rw [h.reported p]
          by_cases hp : p = s.i
          · subst hp
            simp [hi]
          · simp only [Function.update_of_ne hp]
            have hlt' : p < s.forked ↔ p < s.i + 1 := by omega
            rw [hlt']
        · intro hreturned
          simp [hfork] at hreturned
    · rw [if_neg hlt]
      have hall : s.forked = limit := Nat.le_antisymm h.bounded (by omega)
      exact ⟨h.unborn, h.reported, h.once, by simp, h.le, h.waited, by simp, h.bounded,
        Or.inr fun _ => hall⟩
  case h_2 hwait =>
    have hall : s.forks = true → s.forked = limit := by simpa [hwait] using h.complete
    by_cases h0 : s.i = 0
    · rw [if_pos h0]
      exact ⟨h.unborn, h.reported, h.once, by simp, h.le, h.waited, fun _ => h0, h.bounded,
        Or.inr hall⟩
    · rw [if_neg h0]
      split
      case isTrue hgone =>
        have hle := h.le
        refine ⟨h.unborn, h.reported, h.once, ?_, Nat.le_trans (Nat.sub_le _ _) hle, ?_, ?_,
          h.bounded, Or.inr hall⟩
        · intro hfork
          simp [hwait] at hfork
        · intro p hp
          have hp' : s.i - 1 ≤ p := hp
          by_cases hself : p = s.i - 1
          · rw [hself]
            exact Option.isNone_iff_eq_none.mp hgone
          · exact h.waited p (by omega)
        · intro hreturned
          simp [hwait] at hreturned
      case isFalse => exact h
  case h_3 => exact h

theorem runChild_cases (s : Family σ γ ρ) (p : Nat) (env : ε) :
    (s.child p = none ∧ s.runChild C p env = s) ∨
    (∃ c shared c', s.child p = some c ∧ C.step s.shared p c env = (shared, .inl c') ∧
      s.runChild C p env =
        { s with shared, child := Function.update s.child p (some c') }) ∨
    (∃ c shared r, s.child p = some c ∧ C.step s.shared p c env = (shared, .inr r) ∧
      s.runChild C p env = { s with
        shared, child := Function.update s.child p none, out := s.out ++ [(p, r)] }) := by
  cases hc : s.child p with
  | none => exact Or.inl ⟨rfl, by simp [runChild, hc]⟩
  | some c =>
    right
    cases hstep : C.step s.shared p c env with
    | mk shared next =>
      cases next with
      | inl c' => exact Or.inl ⟨c, shared, c', rfl, hstep, by simp [runChild, hc, hstep]⟩
      | inr r => exact Or.inr ⟨c, shared, r, rfl, hstep, by simp [runChild, hc, hstep]⟩

/-- A child that runs is one of those forked and not waited for. -/
theorem Tidy.running {s : Family σ γ ρ} (h : s.Tidy limit) {p : Nat} {c : γ}
    (hc : s.child p = some c) : p < s.i ∧ p < s.forked ∧ p ∉ s.out.map Prod.fst := by
  refine ⟨?_, ?_, ?_⟩
  · by_contra hle
    exact Option.some_ne_none c (hc.symm.trans (h.waited p (by omega)))
  · by_contra hle
    exact Option.some_ne_none c (hc.symm.trans (h.unborn p (by omega)))
  · intro hmem
    exact Option.some_ne_none c (hc.symm.trans ((h.reported p).mp hmem).2)

theorem runChild_tidy {s : Family σ γ ρ} (h : s.Tidy limit) (p : Nat) (env : ε) :
    (s.runChild C p env).Tidy limit := by
  rcases runChild_cases (C := C) s p env with ⟨-, heq⟩ | ⟨c, shared, c', hc, -, heq⟩ |
    ⟨c, shared, r, hc, -, heq⟩
  · rw [heq]
    exact h
  · obtain ⟨hi, hforked, hnot⟩ := h.running hc
    rw [heq]
    refine ⟨?_, ?_, h.once, h.forking, h.le, ?_, h.returned, h.bounded, h.complete⟩
    · intro q hq
      have hq' : s.forked ≤ q := hq
      simp only [Function.update_of_ne (show q ≠ p by omega)]
      exact h.unborn q hq'
    · intro q
      by_cases hqp : q = p
      · subst hqp
        simp [hnot]
      · simp only [Function.update_of_ne hqp]
        exact h.reported q
    · intro q hq
      have hq' : s.i ≤ q := hq
      simp only [Function.update_of_ne (show q ≠ p by omega)]
      exact h.waited q hq'
  · obtain ⟨hi, hforked, hnot⟩ := h.running hc
    rw [heq]
    refine ⟨?_, ?_, ?_, h.forking, h.le, ?_, h.returned, h.bounded, h.complete⟩
    · intro q hq
      have hq' : s.forked ≤ q := hq
      simp only [Function.update_of_ne (show q ≠ p by omega)]
      exact h.unborn q hq'
    · intro q
      rw [List.map_append, List.mem_append, h.reported q]
      by_cases hqp : q = p
      · subst hqp
        simp [hforked]
      · simp [hqp]
    · rw [List.map_append]
      apply List.nodup_append.mpr
      refine ⟨h.once, List.nodup_singleton p, ?_⟩
      intro a ha b hb hab
      obtain rfl : b = p := List.mem_singleton.mp hb
      exact hnot (hab ▸ ha)
    · intro q hq
      have hq' : s.i ≤ q := hq
      simp only [Function.update_of_ne (show q ≠ p by omega)]
      exact h.waited q hq'

theorem step_tidy {s : Family σ γ ρ} (h : s.Tidy limit) (a : FamilyAct ε) :
    (s.step C limit a).Tidy limit := by
  cases a with
  | parent forks => exact runParent_tidy h forks
  | child p env => exact runChild_tidy h p env

theorem run_tidy (shared : σ) (acts : List (FamilyAct ε)) :
    ((machine C limit shared).run acts).Tidy limit :=
  (machine C limit shared).run_invariant (I := Tidy limit) (start_tidy shared)
    (fun _ a h => step_tidy h a) acts

/-- When the parent has returned, each of the children forked has reported once and none of them
runs; they are all there are unless a `fork` has failed. -/
theorem Tidy.all_reported {s : Family σ γ ρ} (h : s.Tidy limit) (hreturned : s.parent = .returned) :
    (s.out.map Prod.fst).Perm (List.range s.forked) ∧ (s.forks = true → s.forked = limit) ∧
      ∀ p, s.child p = none := by
  have hnone (p : Nat) : s.child p = none := h.waited p (by rw [h.returned hreturned]; omega)
  refine ⟨?_, by simpa [hreturned] using h.complete, hnone⟩
  apply (List.perm_ext_iff_of_nodup h.once List.nodup_range).mpr
  intro p
  rw [h.reported p, List.mem_range, and_iff_left (hnone p)]

/-- What every fork and every step of a child keeps. -/
structure Keeps (C : Children σ γ ε ρ) (I : σ → (Nat → Option γ) → List (Nat × ρ) → Prop) :
    Prop where
  fork : ∀ s child out p, I s child out → child p = none → p ∉ out.map Prod.fst →
    I s (Function.update child p (some C.first)) out
  goes : ∀ s child out p c env s' c', I s child out → child p = some c →
    C.step s p c env = (s', .inl c') → I s' (Function.update child p (some c')) out
  ends : ∀ s child out p c env s' r, I s child out → child p = some c →
    C.step s p c env = (s', .inr r) → I s' (Function.update child p none) (out ++ [(p, r)])

theorem Keeps.runParent {I : σ → (Nat → Option γ) → List (Nat × ρ) → Prop} (h : Keeps C I)
    {s : Family σ γ ρ} (htidy : s.Tidy limit) (hs : I s.shared s.child s.out) (forks : Bool) :
    I (s.runParent C limit forks).shared (s.runParent C limit forks).child
      (s.runParent C limit forks).out := by
  unfold Family.runParent
  split
  case h_1 hfork =>
    have hi := htidy.forking hfork
    split
    case isTrue =>
      split
      case isTrue =>
        have hnone := htidy.unborn s.i (Nat.le_of_eq hi.symm)
        refine h.fork _ _ _ _ hs hnone ?_
        rw [htidy.reported s.i]
        omega
      case isFalse => exact hs
    case isFalse => exact hs
  case h_2 =>
    split
    · exact hs
    · split
      · exact hs
      · exact hs
  case h_3 => exact hs

theorem Keeps.runChild {I : σ → (Nat → Option γ) → List (Nat × ρ) → Prop} (h : Keeps C I)
    {s : Family σ γ ρ} (hs : I s.shared s.child s.out) (p : Nat) (env : ε) :
    I (s.runChild C p env).shared (s.runChild C p env).child (s.runChild C p env).out := by
  rcases runChild_cases (C := C) s p env with ⟨-, heq⟩ | ⟨c, shared, c', hc, hstep, heq⟩ |
    ⟨c, shared, r, hc, hstep, heq⟩
  · rw [heq]
    exact hs
  · rw [heq]
    exact h.goes _ _ _ p c env shared c' hs hc hstep
  · rw [heq]
    exact h.ends _ _ _ p c env shared r hs hc hstep

theorem Keeps.run {I : σ → (Nat → Option γ) → List (Nat × ρ) → Prop} (h : Keeps C I) {shared : σ}
    (hstart : I shared (fun _ => none) []) (acts : List (FamilyAct ε)) :
    let s := (machine C limit shared).run acts
    I s.shared s.child s.out := by
  have hrun := (machine C limit shared).run_invariant
    (I := fun s => s.Tidy limit ∧ I s.shared s.child s.out) ⟨start_tidy shared, hstart⟩
    (fun s a hs => ⟨step_tidy hs.1 a, by
      cases a with
      | parent forks => exact h.runParent hs.1 hs.2 forks
      | child p env => exact h.runChild hs.2 p env⟩) acts
  exact hrun.2

section Progress

/-- What is left to do for the children, `rank` telling it for one that runs. -/
def load (rank : σ → Nat → γ → Nat) (s : Family σ γ ρ) : Nat :=
  ∑ p ∈ Finset.range s.forked, ((s.child p).map fun c => rank s.shared p c + 1).getD 0

/-- What is left to do for the whole program. -/
def work (limit : Nat) (rank : σ → Nat → γ → Nat) (s : Family σ γ ρ) : Nat :=
  match s.parent with
  | .fork => load rank s + limit + 2
  | .wait => load rank s + s.i + 1
  | .returned => 0

/-- Some child that runs has less to do after its step, or ends with it, and the others do not have
more to do. -/
def Nearer (C : Children σ γ ε ρ) (rank : σ → Nat → γ → Nat) (s : σ) (child : Nat → Option γ) :
    Prop :=
  ∃ p c env, child p = some c ∧
    (∀ q d, q ≠ p → child q = some d → rank (C.step s p c env).1 q d ≤ rank s q d) ∧
    ∀ c', (C.step s p c env).2 = .inl c' → rank (C.step s p c env).1 p c' < rank s p c

theorem Nearer.load_lt {rank : σ → Nat → γ → Nat} {s : Family σ γ ρ} (htidy : s.Tidy limit)
    (h : Nearer C rank s.shared s.child) :
    ∃ p env, load rank (s.runChild C p env) < load rank s := by
  obtain ⟨p, c, env, hc, hothers, hself⟩ := h
  have hp : p ∈ Finset.range s.forked := Finset.mem_range.mpr (htidy.running hc).2.1
  refine ⟨p, env, ?_⟩
  rcases runChild_cases (C := C) s p env with ⟨hnone, -⟩ | ⟨d, shared, c', hd, hstep, heq⟩ |
    ⟨d, shared, r, hd, hstep, heq⟩
  · exact absurd (hc.symm.trans hnone) (Option.some_ne_none c)
  · obtain rfl := Option.some.inj (hc.symm.trans hd)
    rw [hstep] at hothers hself
    rw [heq]
    apply Finset.sum_lt_sum
    · intro q _
      by_cases hqp : q = p
      · subst hqp
        have hlt := hself c' rfl
        simp only [Function.update_self, hc, Option.map_some, Option.getD_some]
        exact Nat.succ_le_succ (Nat.le_of_lt hlt)
      · simp only [Function.update_of_ne hqp]
        cases hq : s.child q with
        | none => exact Nat.le_refl _
        | some d => exact Nat.succ_le_succ (hothers q d hqp hq)
    · refine ⟨p, hp, ?_⟩
      simp only [Function.update_self, hc, Option.map_some, Option.getD_some]
      exact Nat.succ_lt_succ (hself c' rfl)
  · obtain rfl := Option.some.inj (hc.symm.trans hd)
    rw [hstep] at hothers
    rw [heq]
    apply Finset.sum_lt_sum
    · intro q _
      by_cases hqp : q = p
      · subst hqp
        simp
      · simp only [Function.update_of_ne hqp]
        cases hq : s.child q with
        | none => exact Nat.le_refl _
        | some d => exact Nat.succ_le_succ (hothers q d hqp hq)
    · refine ⟨p, hp, ?_⟩
      simp [hc]

/-- Where the children that run always get nearer to their end, the program gets to its end from
every state of a run, without another fork. -/
theorem can_return {I : σ → (Nat → Option γ) → List (Nat × ρ) → Prop} (h : Keeps C I)
    (rank : σ → Nat → γ → Nat)
    (nearer : ∀ s child out, I s child out → (∃ p, child p ≠ none) → Nearer C rank s child)
    {shared : σ} (hstart : I shared (fun _ => none) []) (acts : List (FamilyAct ε)) :
    ∃ more, (∀ a ∈ more, a ≠ .parent true) ∧
      ((machine C limit shared).run (acts ++ more)).parent = .returned := by
  have hstep (s : Family σ γ ρ) (hs : s.Tidy limit ∧ I s.shared s.child s.out)
      (hnot : ¬ s.parent = .returned) :
      ∃ a, a ≠ FamilyAct.parent true ∧
        ((s.step C limit a).Tidy limit ∧
          I (s.step C limit a).shared (s.step C limit a).child (s.step C limit a).out) ∧
        work limit rank (s.step C limit a) < work limit rank s := by
    obtain ⟨htidy, hi⟩ := hs
    have hparent : ((s.runParent C limit false).Tidy limit ∧
        I (s.runParent C limit false).shared (s.runParent C limit false).child
          (s.runParent C limit false).out) :=
      ⟨runParent_tidy htidy false, h.runParent htidy hi false⟩
    obtain ⟨parent, hpc⟩ : ∃ parent, s.parent = parent := ⟨_, rfl⟩
    cases parent with
    | returned => exact absurd hpc hnot
    | fork =>
      refine ⟨.parent false, by simp, hparent, ?_⟩
      have hle := Nat.le_trans htidy.le htidy.bounded
      have hload : work limit rank (s.runParent C limit false) = load rank s + s.i + 1 := by
        by_cases hlt : s.i < limit <;> simp [runParent, hpc, hlt, work, load]
      show work limit rank (s.runParent C limit false) < _
      rw [hload, work, hpc]
      simp only
      omega
    | wait =>
      by_cases hgone : s.i = 0 ∨ s.child (s.i - 1) = none
      · refine ⟨.parent false, by simp, hparent, ?_⟩
        show work limit rank (s.runParent C limit false) < _
        by_cases h0 : s.i = 0
        · simp [runParent, hpc, h0, work]
        · have hnone : s.child (s.i - 1) = none := hgone.resolve_left h0
          have hload : work limit rank (s.runParent C limit false) =
              load rank s + (s.i - 1) + 1 := by
            simp [runParent, hpc, h0, hnone, work, load]
          rw [hload, work, hpc]
          simp only
          omega
      · have halive : ∃ p, s.child p ≠ none := ⟨s.i - 1, fun h => hgone (Or.inr h)⟩
        obtain ⟨p, env, hlt⟩ := (nearer _ _ _ hi halive).load_lt htidy
        refine ⟨.child p env, by simp, ⟨runChild_tidy htidy p env, h.runChild hi p env⟩, ?_⟩
        show work limit rank (s.runChild C p env) < _
        have hsame : (s.runChild C p env).parent = s.parent ∧ (s.runChild C p env).i = s.i := by
          rcases runChild_cases (C := C) s p env with ⟨-, heq⟩ | ⟨c, shared, c', -, -, heq⟩ |
            ⟨c, shared, r, -, -, heq⟩ <;> rw [heq] <;> exact ⟨rfl, rfl⟩
        rw [work, work, hsame.1, hsame.2, hpc]
        simp only
        omega
  have hnow : ((machine C limit shared).run acts).Tidy limit ∧
      I ((machine C limit shared).run acts).shared ((machine C limit shared).run acts).child
        ((machine C limit shared).run acts).out := ⟨run_tidy shared acts, h.run hstart acts⟩
  obtain ⟨more, hmore, -, hreturned⟩ :=
    (machine C limit shared).reaches_of_measure (work limit rank) hstep hnow
  rw [← Machine.run_append] at hreturned
  exact ⟨more, hmore, hreturned⟩

end Progress

end Family

end KernelDrivers.Framework
