import Mathlib.Data.List.Induction
import Mathlib.Logic.Function.Basic
import Mathlib.Tactic.Tauto

namespace KernelDrivers.Framework

/-- A system driven by a schedule: the scheduled action and the current state fix the
next state, and an action that is not enabled leaves the state as it is. -/
structure Machine (σ α : Type*) where
  init : σ
  step : σ → α → σ

namespace Machine

variable {σ α : Type*} (M : Machine σ α)

/-- The state reached from `s` by a schedule, its first action taken first. -/
def runFrom (s : σ) (acts : List α) : σ := acts.foldl M.step s

/-- The state a schedule reaches from the initial state. -/
def run (acts : List α) : σ := M.runFrom M.init acts

@[simp] theorem run_concat (acts : List α) (a : α) :
    M.run (acts ++ [a]) = M.step (M.run acts) a := by
  simp [run, runFrom]

theorem runFrom_cons (s : σ) (a : α) (acts : List α) :
    M.runFrom s (a :: acts) = M.runFrom (M.step s a) acts := rfl

theorem runFrom_append (s : σ) (acts more : List α) :
    M.runFrom s (acts ++ more) = M.runFrom (M.runFrom s acts) more := by
  simp [runFrom]

theorem run_append (acts more : List α) : M.run (acts ++ more) = M.runFrom (M.run acts) more := by
  simp [run, runFrom]

/-- A property of schedules and the states they reach, carried from each schedule to
its extension by one action. -/
theorem run_induction {I : List α → σ → Prop} (start : I [] M.init)
    (step : ∀ acts a, I acts (M.run acts) → I (acts ++ [a]) (M.step (M.run acts) a))
    (acts : List α) : I acts (M.run acts) := by
  induction acts using List.reverseRecOn with
  | nil => exact start
  | append_singleton acts a ih =>
    rw [run_concat]
    exact step acts a ih

theorem run_invariant {I : σ → Prop} (start : I M.init)
    (step : ∀ s a, I s → I (M.step s a)) (acts : List α) : I (M.run acts) :=
  M.run_induction (I := fun _ => I) start (fun _ a ih => step _ a ih) acts

/-- Every action of the schedule is taken in a state that meets `cond`. -/
def MeetsFrom (cond : σ → α → Prop) : σ → List α → Prop
  | _, [] => True
  | s, a :: acts => cond s a ∧ MeetsFrom cond (M.step s a) acts

def Meets (cond : σ → α → Prop) (acts : List α) : Prop := M.MeetsFrom cond M.init acts

instance decidableMeetsFrom (cond : σ → α → Prop) [∀ s a, Decidable (cond s a)] :
    ∀ (s : σ) (acts : List α), Decidable (M.MeetsFrom cond s acts)
  | _, [] => .isTrue trivial
  | s, a :: acts =>
    have := decidableMeetsFrom cond (M.step s a) acts
    inferInstanceAs (Decidable (cond s a ∧ M.MeetsFrom cond (M.step s a) acts))

instance decidableMeets (cond : σ → α → Prop) [∀ s a, Decidable (cond s a)]
    (acts : List α) : Decidable (M.Meets cond acts) :=
  M.decidableMeetsFrom cond M.init acts

/-- Where some allowed action always brings the goal nearer, a schedule of such actions reaches
it. -/
theorem reaches_of_measure {I G : σ → Prop} {allowed : α → Prop} (m : σ → Nat)
    (nearer : ∀ s, I s → ¬ G s → ∃ a, allowed a ∧ I (M.step s a) ∧ m (M.step s a) < m s)
    {s : σ} (hs : I s) :
    ∃ more, (∀ a ∈ more, allowed a) ∧ I (M.runFrom s more) ∧ G (M.runFrom s more) := by
  induction hn : m s using Nat.strongRecOn generalizing s with
  | _ n ih =>
    by_cases hgoal : G s
    · exact ⟨[], nofun, hs, hgoal⟩
    · obtain ⟨a, ha, hi, hlt⟩ := nearer s hs hgoal
      obtain ⟨more, hall, hi', hgoal'⟩ := ih _ (hn ▸ hlt) hi rfl
      exact ⟨a :: more, List.forall_mem_cons.mpr ⟨ha, hall⟩, hi', hgoal'⟩

variable {M}
variable {cond : σ → α → Prop}

theorem meetsFrom_append (s : σ) (acts more : List α) :
    M.MeetsFrom cond s (acts ++ more) ↔
      M.MeetsFrom cond s acts ∧ M.MeetsFrom cond (M.runFrom s acts) more := by
  induction acts generalizing s with
  | nil => simp [MeetsFrom, runFrom]
  | cons b acts ih =>
    simp only [List.cons_append, MeetsFrom, ih, runFrom, List.foldl_cons]
    tauto

theorem meetsFrom_concat (s : σ) (acts : List α) (a : α) :
    M.MeetsFrom cond s (acts ++ [a]) ↔
      M.MeetsFrom cond s acts ∧ cond (M.runFrom s acts) a := by
  rw [meetsFrom_append]
  simp [MeetsFrom]

theorem meets_concat (acts : List α) (a : α) :
    M.Meets cond (acts ++ [a]) ↔ M.Meets cond acts ∧ cond (M.run acts) a :=
  meetsFrom_concat M.init acts a

theorem meets_iff_prefix (acts : List α) :
    M.Meets cond acts ↔ ∀ past a, past ++ [a] <+: acts → cond (M.run past) a := by
  induction acts using List.reverseRecOn with
  | nil => exact ⟨fun _ past a h => absurd (List.prefix_nil.mp h) (by simp), fun _ => trivial⟩
  | append_singleton acts b ih =>
    rw [meets_concat, ih]
    constructor
    · rintro ⟨hold, hlast⟩ past a hpast
      rcases List.prefix_concat_iff.mp hpast with heq | hpast
      · obtain ⟨rfl, rfl⟩ := List.append_singleton_inj.mp heq
        exact hlast
      · exact hold past a hpast
    · intro h
      exact ⟨fun past a hpast => h past a (hpast.trans (List.prefix_append acts [b])),
        h acts b List.prefix_rfl⟩

theorem meets_of_append (acts more : List α) (h : M.Meets cond (acts ++ more)) :
    M.Meets cond acts := by
  induction more using List.reverseRecOn with
  | nil => rwa [List.append_nil] at h
  | append_singleton more a ih =>
    rw [← List.append_assoc] at h
    exact ih ((meets_concat _ a).mp h).1

/-- A condition that does not look at the states is one on the actions of the schedule. -/
theorem meets_actions (good : α → Prop) (acts : List α) :
    M.Meets (fun _ a => good a) acts ↔ ∀ a ∈ acts, good a := by
  induction acts using List.reverseRecOn with
  | nil => exact iff_of_true trivial nofun
  | append_singleton acts a ih =>
    rw [meets_concat, ih, List.forall_mem_append, List.forall_mem_singleton]

/-- An invariant that only the conditioned steps keep holds along conditioned runs. -/
theorem run_invariant_of_meets {I : σ → Prop} (start : I M.init)
    (step : ∀ s a, cond s a → I s → I (M.step s a)) {acts : List α}
    (h : M.Meets cond acts) : I (M.run acts) := by
  have hrun := M.run_induction (I := fun acts s => M.Meets cond acts → I s)
    (fun _ => start)
    (fun acts a ih hm => by
      obtain ⟨hacts, ha⟩ := (meets_concat acts a).mp hm
      exact step _ a ha (ih hacts)) acts
  exact hrun h

/-- A condition on steps that the invariant of a run gives is met by the run. -/
theorem meets_of_invariant {good : σ → α → Prop} {I : σ → Prop} (start : I M.init)
    (step : ∀ s a, cond s a → I s → I (M.step s a)) (sound : ∀ s a, I s → good s a)
    {acts : List α} (h : M.Meets cond acts) : M.Meets good acts := by
  induction acts using List.reverseRecOn with
  | nil => trivial
  | append_singleton acts a ih =>
    obtain ⟨hacts, -⟩ := (meets_concat acts a).mp h
    rw [meets_concat]
    exact ⟨ih hacts, sound _ a (run_invariant_of_meets start step hacts)⟩

/-- A condition on steps that an invariant of all steps gives is met by every run. -/
theorem meets_of_run_invariant {I : σ → Prop} (start : I M.init)
    (step : ∀ s a, I s → I (M.step s a)) (sound : ∀ s a, I s → cond s a) (acts : List α) :
    M.Meets cond acts := by
  induction acts using List.reverseRecOn with
  | nil => trivial
  | append_singleton acts a ih =>
    rw [meets_concat]
    exact ⟨ih, sound _ a (M.run_invariant start step acts)⟩

/-- Two conditions on steps that agree wherever a run that meets the second one gets to are
met by the same runs. -/
theorem meets_congr {good : σ → α → Prop} {I : σ → Prop} (start : I M.init)
    (step : ∀ s a, cond s a → I s → I (M.step s a)) (agree : ∀ s a, I s → (good s a ↔ cond s a))
    (acts : List α) : M.Meets good acts ↔ M.Meets cond acts := by
  induction acts using List.reverseRecOn with
  | nil => exact Iff.rfl
  | append_singleton acts a ih =>
    rw [meets_concat, meets_concat, ih]
    apply and_congr_right
    intro hm
    exact agree _ a (run_invariant_of_meets start step hm)

/-- All states of a run have a property when the first one has it and every step keeps it. -/
theorem forall_prefix_iff (P : σ → Prop) (acts : List α) :
    (∀ past, past <+: acts → P (M.run past)) ↔
      P M.init ∧ M.Meets (fun s a => P (M.step s a)) acts := by
  induction acts using List.reverseRecOn with
  | nil =>
    constructor
    · intro h
      exact ⟨h [] List.prefix_rfl, trivial⟩
    · intro h past hpast
      rw [List.prefix_nil.mp hpast]
      exact h.1
  | append_singleton acts a ih =>
    rw [meets_concat, ← and_assoc, ← ih, ← run_concat]
    constructor
    · intro h
      exact ⟨fun past hpast => h past (hpast.trans (List.prefix_append acts [a])),
        h _ List.prefix_rfl⟩
    · intro h past hpast
      rcases List.prefix_concat_iff.mp hpast with rfl | hpast
      · exact h.2
      · exact h.1 past hpast

/-- Where the invariant of the conditioned steps tells safe states from the ones that any
other step leads to, the runs that stay safe are those that meet the condition. -/
theorem safe_iff_meets {safe I : σ → Prop} (start : I M.init)
    (step : ∀ s a, cond s a → I s → I (M.step s a)) (sound : ∀ s, I s → safe s)
    (harm : ∀ s a, ¬ cond s a → I s → ¬ safe (M.step s a)) (acts : List α) :
    (∀ past, past <+: acts → safe (M.run past)) ↔ M.Meets cond acts := by
  rw [forall_prefix_iff, and_iff_right (sound _ start)]
  apply meets_congr start step
  intro s a hi
  constructor
  · intro hsafe
    by_contra hc
    exact harm s a hc hi hsafe
  · intro hc
    exact sound _ (step s a hc hi)

/-- Where an invariant of all steps tells which steps keep a safe state safe, the runs that stay
safe are those that take only such steps. -/
theorem safe_iff_meets_of_invariant {safe J : σ → Prop} (start : J M.init) (first : safe M.init)
    (step : ∀ s a, J s → J (M.step s a))
    (agree : ∀ s a, J s → safe s → (safe (M.step s a) ↔ cond s a)) (acts : List α) :
    (∀ past, past <+: acts → safe (M.run past)) ↔ M.Meets cond acts := by
  apply safe_iff_meets (I := fun s => J s ∧ safe s) ⟨start, first⟩
  · intro s a hc h
    exact ⟨step s a h.1, (agree s a h.1 h.2).mpr hc⟩
  · exact fun s h => h.2
  · intro s a hc h hsafe
    exact hc ((agree s a h.1 h.2).mp hsafe)

variable (cond) in
/-- A run that meets the condition stays good, and once a step has not met it the run stays
bad. -/
theorem run_split {good bad : σ → Prop} (start : good M.init)
    (keep : ∀ s a, cond s a → good s → good (M.step s a))
    (slip : ∀ s a, ¬ cond s a → good s → bad (M.step s a))
    (stay : ∀ s a, bad s → bad (M.step s a)) (acts : List α) :
    (M.Meets cond acts ∧ good (M.run acts)) ∨ (¬ M.Meets cond acts ∧ bad (M.run acts)) := by
  induction acts using List.reverseRecOn with
  | nil => exact Or.inl ⟨trivial, start⟩
  | append_singleton acts a ih =>
    rw [meets_concat, run_concat]
    rcases ih with ⟨hm, hgood⟩ | ⟨hm, hbad⟩
    · by_cases ha : cond (M.run acts) a
      · exact Or.inl ⟨⟨hm, ha⟩, keep _ a ha hgood⟩
      · exact Or.inr ⟨fun h => ha h.2, slip _ a ha hgood⟩
    · exact Or.inr ⟨fun h => hm h.1, stay _ a hbad⟩

end Machine

/-- What is in a table of processes after the entry of `p` has been set to `v`. -/
theorem update_eq_some {P α : Type*} [DecidableEq P] {f : P → Option α} {p q : P} {v : Option α}
    {x : α} (h : Function.update f p v q = some x) :
    (q = p ∧ v = some x) ∨ (q ≠ p ∧ f q = some x) := by
  by_cases hq : q = p
  · subst hq
    rw [Function.update_self] at h
    exact Or.inl ⟨rfl, h⟩
  · rw [Function.update_of_ne hq] at h
    exact Or.inr ⟨hq, h⟩

end KernelDrivers.Framework
