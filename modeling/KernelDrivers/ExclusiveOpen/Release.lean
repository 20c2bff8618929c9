import KernelDrivers.ExclusiveOpen.Flag

namespace KernelDrivers.ExclusiveOpen

open Framework Kernel

/-- `demo_open` and `demo_release` of kernel_code_v1/lock/atomic. -/
def demo : Driver where
  openTest := atomicDecAndTest
  releaseTest v := (atomicInc v, false)
  opens _ := rfl
  releases _ := Or.inl rfl

/-- `atomic_open` and `atomic_release` of locks/atomic. -/
def atomic : Driver where
  openTest := atomicSubAndTest 1
  releaseTest v := if v == 0 then (v, true) else (v, false)
  opens _ := rfl
  releases v := by
    cases v == 0
    · exact Or.inr (Or.inr rfl)
    · exact Or.inr (Or.inl rfl)

variable {P : Type*}

theorem demo_not_drops (s : State P) (a : Act P) : ¬ demo.Drops s a := by
  intro h
  obtain ⟨p, -, -, -, hrel⟩ := h
  have hflag : s.flag + 1 = s.flag := congrArg Prod.fst hrel
  omega

/-- A release of `locks/atomic` reads the flag while no failed open has still to
increment back. -/
def ReadsClean [Fintype P] (s : State P) : Act P → Prop
  | .releaseDev p => s.pc p = .idle → s.files ≠ 0 → s.undoing = 0
  | _ => True

instance [Fintype P] (s : State P) (a : Act P) : Decidable (ReadsClean s a) := by
  cases a <;> simp only [ReadsClean] <;> infer_instance

variable [Fintype P]

/-- The release that drops its place is the one whose read meets a failed open. -/
theorem atomic_drops_iff {s : State P} (hs : s.Sound) (a : Act P) :
    atomic.Drops s a ↔ ¬ ReadsClean s a := by
  have hfloor := hs.floor
  have hceiling := hs.ceiling
  unfold State.places at hceiling
  constructor
  · intro hd hclean
    obtain ⟨p, ha, hidle, hfiles, hrel⟩ := hd
    subst ha
    have hu := hclean hidle hfiles
    have h0 : s.flag = 0 := by omega
    simp [atomic, h0] at hrel
  · intro hdirty
    cases a with
    | openDev p => exact absurd trivial hdirty
    | finish p => exact absurd trivial hdirty
    | releaseDev p =>
      simp only [ReadsClean, Classical.not_imp] at hdirty
      obtain ⟨hidle, hfiles, hu⟩ := hdirty
      have h0 : s.flag ≠ 0 := by omega
      exact ⟨p, rfl, hidle, hfiles, by simp [atomic, h0]⟩

variable [DecidableEq P]

omit [Fintype P] in
theorem demo_step_ne_inc {s : State P} (h : ∀ p, s.pc p ≠ .inc) (a : Act P) (q : P) :
    (demo.step s a).pc q ≠ .inc := by
  have hupdate (p : P) (v : Pc) (hv : v ≠ .inc) : Function.update s.pc p v q ≠ .inc := by
    by_cases hq : q = p
    · subst hq
      rwa [Function.update_self]
    · rw [Function.update_of_ne hq]
      exact h q
  cases a with
  | openDev p =>
    by_cases hp : s.pc p = .idle
    · rw [Driver.step_openDev hp]
      by_cases h1 : s.flag = 1
      · rw [if_pos h1]
        exact h q
      · rw [if_neg h1]
        exact hupdate p .undo (by decide)
    · rw [Driver.step, if_neg hp]
      exact h q
  | releaseDev p =>
    by_cases hp : s.pc p = .idle ∧ s.files ≠ 0
    · rw [Driver.step, if_pos hp]
      exact h q
    · rw [Driver.step, if_neg hp]
      exact h q
  | finish p =>
    cases hp : s.pc p with
    | idle => simpa only [Driver.step, hp] using h q
    | undo => simpa only [Driver.step, hp] using hupdate p .idle (by decide)
    | inc => exact absurd hp (h p)

/-- In every run of the plain increment each place is accounted for, and none of them by a
release that is still to increment. -/
theorem demo_places (acts : List (Act P)) :
    ((demo.machine P).run acts).Sound ∧ ((demo.machine P).run acts).places = 1 ∧
      ∀ p, ((demo.machine P).run acts).pc p ≠ .inc := by
  apply (demo.machine P).run_invariant (I := fun s => s.Sound ∧ s.places = 1 ∧ ∀ p, s.pc p ≠ .inc)
  · exact ⟨State.start_sound, State.start_places, fun _ => by simp [Driver.machine, State.start]⟩
  · intro s a ih
    obtain ⟨hs, hplaces, hinc⟩ := ih
    obtain ⟨hs', hkeep, -⟩ := Driver.step_sound (d := demo) hs a
    have hkept := hkeep (demo_not_drops s a)
    exact ⟨hs', hkept.trans hplaces, demo_step_ne_inc hinc a⟩

/-- The flag of kernel_code_v1/lock/atomic stays within one unit for each process. -/
theorem demo_flag_range (acts : List (Act P)) :
    -(Fintype.card P : Int) ≤ ((demo.machine P).run acts).flag ∧
      ((demo.machine P).run acts).flag ≤ 1 := by
  obtain ⟨hs, hplaces, -⟩ := demo_places acts
  have hfloor := hs.floor
  have hcard := countWhere_le Pc.undoes ((demo.machine P).run acts).pc
  unfold State.places at hplaces
  unfold State.undoing at hfloor hplaces
  omega

/-- The flag counts the free place less the failed opens that have not yet incremented
back; one file at most is open, and an idle device admits the next open. -/
theorem demo_flag_counts (acts : List (Act P)) :
    let s := (demo.machine P).run acts
    s.flag = 1 - s.files - s.undoing ∧ s.files ≤ 1 ∧
      (s.Quiet → s.flag = 1 ∧ ∀ p, (demo.step s (.openDev p)).files = 1 ∧
        (demo.step s (.openDev p)).returned = s.returned ++ [(p, 0)]) := by
  intro s
  obtain ⟨hs, hplaces, hinc⟩ := demo_places acts
  have hi : s.incrementing = 0 := countWhere_eq_zero fun p => by
    cases hp : s.pc p with
    | idle => rfl
    | undo => rfl
    | inc => exact absurd hp (hinc p)
  have hsum : s.flag + s.undoing + s.files + s.incrementing = 1 := hplaces
  have hone : s.files ≤ 1 := Nat.le_trans (Nat.le_add_right _ _) hs.files_le
  refine ⟨by omega, hone, fun hq => ?_⟩
  have h1 : s.flag = 1 := hq.places.symm.trans hplaces
  refine ⟨h1, fun p => ?_⟩
  rw [Driver.step_openDev (hq.2 p), if_pos h1]
  exact ⟨congrArg (· + 1) hq.1, rfl⟩

/-- In every run of the conditional increment the one place is there as long as every
release has read the flag clean, and is gone for good afterwards. -/
theorem atomic_places (acts : List (Act P)) :
    ((atomic.machine P).run acts).Sound ∧
      ((atomic.machine P).Meets ReadsClean acts → ((atomic.machine P).run acts).places = 1) ∧
      (¬ (atomic.machine P).Meets ReadsClean acts → ((atomic.machine P).run acts).places = 0) := by
  apply (atomic.machine P).run_induction
    (I := fun acts s => s.Sound ∧ ((atomic.machine P).Meets ReadsClean acts → s.places = 1) ∧
      (¬ (atomic.machine P).Meets ReadsClean acts → s.places = 0))
  · exact ⟨State.start_sound, fun _ => State.start_places, fun h => absurd trivial h⟩
  · intro acts a ih
    obtain ⟨hs, hmeets, hnot⟩ := ih
    obtain ⟨hs', hkeep, hdrop⟩ := Driver.step_sound (d := atomic) hs a
    have hiff := atomic_drops_iff hs a
    rw [Machine.meets_concat]
    refine ⟨hs', ?_, ?_⟩
    · intro h
      have hkept := hkeep fun hd => hiff.mp hd h.2
      exact hkept.trans (hmeets h.1)
    · intro h
      by_cases hacts : (atomic.machine P).Meets ReadsClean acts
      · -- this release loses the place
        have hd := hiff.mpr fun hclean => h ⟨hacts, hclean⟩
        have hlost := hdrop hd
        have hfull := hmeets hacts
        show (atomic.step _ a).places = 0
        omega
      · -- the place is gone, so no file is left to release
        have hgone := hnot hacts
        have hkept := hkeep fun hd => by
          obtain ⟨p, -, -, hfiles, -⟩ := hd
          have hfloor := hs.floor
          unfold State.places at hgone
          omega
        exact hkept.trans hgone

/-- One file at most is open or still in its release. A device that is idle has its flag
back exactly when no release read the flag while a failed open was still to increment back;
after such a release nobody opens it again. -/
theorem atomic_idle_iff (acts : List (Act P)) :
    let s := (atomic.machine P).run acts
    s.files + s.incrementing ≤ 1 ∧
      (s.Quiet → (s.flag = 1 ↔ (atomic.machine P).Meets ReadsClean acts)) ∧
      (¬ (atomic.machine P).Meets ReadsClean acts →
        ∀ more, ((atomic.machine P).run (acts ++ more)).files = 0) := by
  intro s
  obtain ⟨hs, hmeets, hnot⟩ := atomic_places acts
  refine ⟨hs.files_le, ?_, ?_⟩
  · intro hq
    have hflag : s.places = s.flag := hq.places
    constructor
    · intro h1
      by_contra hdirty
      have hgone : s.places = 0 := hnot hdirty
      omega
    · intro hclean
      exact hflag.symm.trans (hmeets hclean)
  · intro hdirty more
    obtain ⟨hs', -, hnot'⟩ := atomic_places (acts ++ more)
    have hgone := hnot' fun h => hdirty (Machine.meets_of_append acts more h)
    have hfloor := hs'.floor
    unfold State.places at hgone
    omega

/-- One open, a second one that fails, the release of the first before the second has
incremented back: the device is idle and its flag is zero. -/
theorem atomic_release_loses_increment :
    ¬ (((atomic.machine (Fin 2)).run [.openDev 0, .openDev 1, .releaseDev 0, .finish 1]).Quiet →
      ((atomic.machine (Fin 2)).run [.openDev 0, .openDev 1, .releaseDev 0, .finish 1]).flag =
        1) := by
  intro h
  have hquiet : ((atomic.machine (Fin 2)).run
      [.openDev 0, .openDev 1, .releaseDev 0, .finish 1]).Quiet := ⟨by decide, by decide⟩
  exact absurd (h hquiet) (by decide)

end KernelDrivers.ExclusiveOpen
