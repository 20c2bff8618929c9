import KernelDrivers.Framework.Counting
import KernelDrivers.Framework.Machine
import KernelDrivers.Kernel.Basic

namespace KernelDrivers.ExclusiveOpen

open Framework Kernel

/-- `atomic_sub_and_test(i, v)`: the new value and whether it is zero, in one step. -/
def atomicSubAndTest (i v : Int) : Int × Bool := (v - i, v - i == 0)

def atomicDecAndTest (v : Int) : Int × Bool := atomicSubAndTest 1 v

def atomicInc (v : Int) : Int := v + 1

/-- What a process still has to do: after a failed test an open increments back, and a
release that has read the flag may have its increment left. -/
inductive Pc where
  | idle
  | undo
  | inc
  deriving DecidableEq

namespace Pc

def undoes : Pc → Bool
  | .undo => true
  | _ => false

def increments : Pc → Bool
  | .inc => true
  | _ => false

end Pc

/-- A driver that admits one opener: the first atomic operation of `open`, with its
verdict, and the first one of `release`, with whether an increment is left to do. -/
structure Driver where
  openTest : Int → Int × Bool
  releaseTest : Int → Int × Bool
  opens : ∀ v, openTest v = (v - 1, v - 1 == 0)
  releases : ∀ v, releaseTest v = (v + 1, false) ∨ releaseTest v = (v, true) ∨
    releaseTest v = (v, false)

structure State (P : Type*) where
  flag : Int
  files : Nat
  pc : P → Pc
  returned : List (P × Int)

inductive Act (P : Type*) where
  | openDev (p : P)
  | releaseDev (p : P)
  | finish (p : P)
  deriving DecidableEq

namespace State

variable {P : Type*}

def start : State P := ⟨1, 0, fun _ => .idle, []⟩

/-- No file is open and no open or release is in flight. -/
def Quiet (s : State P) : Prop := s.files = 0 ∧ ∀ p, s.pc p = .idle

def undoing [Fintype P] (s : State P) : Nat := countWhere Pc.undoes s.pc

def incrementing [Fintype P] (s : State P) : Nat := countWhere Pc.increments s.pc

/-- The places of the flag that are accounted for: those of the open files, of the failed
opens and of the releases in flight, and the one that is free. -/
def places [Fintype P] (s : State P) : Int := s.flag + s.undoing + s.files + s.incrementing

/-- The flag never falls further than the failed opens push it, and no place is made up. -/
structure Sound [Fintype P] (s : State P) : Prop where
  floor : 0 ≤ s.flag + s.undoing
  ceiling : s.places ≤ 1

@[simp] theorem start_undoing [Fintype P] : (start : State P).undoing = 0 :=
  countWhere_eq_zero fun _ => rfl

@[simp] theorem start_incrementing [Fintype P] : (start : State P).incrementing = 0 :=
  countWhere_eq_zero fun _ => rfl

theorem start_places [Fintype P] : (start : State P).places = 1 := by
  rw [places, start_undoing, start_incrementing]
  rfl

theorem start_sound [Fintype P] : (start : State P).Sound where
  floor := by
    rw [start_undoing]
    exact Int.one_nonneg
  ceiling := le_of_eq start_places

theorem Quiet.places [Fintype P] {s : State P} (h : s.Quiet) : s.places = s.flag := by
  obtain ⟨hfiles, hidle⟩ := h
  have hu : s.undoing = 0 := countWhere_eq_zero fun p => by rw [hidle p]; rfl
  have hi : s.incrementing = 0 := countWhere_eq_zero fun p => by rw [hidle p]; rfl
  rw [State.places, hfiles, hu, hi]
  omega

/-- One file at most is open or, though released, still has its increment to come. -/
theorem Sound.files_le [Fintype P] {s : State P} (h : s.Sound) :
    s.files + s.incrementing ≤ 1 := by
  have hf := h.floor
  have hc := h.ceiling
  unfold State.places at hc
  omega

end State

namespace Driver

variable {P : Type*} [DecidableEq P] (d : Driver)

def step (s : State P) : Act P → State P
  | .openDev p =>
    if s.pc p = .idle then
      let (flag, ok) := d.openTest s.flag
      if ok then { s with flag, files := s.files + 1, returned := s.returned ++ [(p, 0)] }
      else { s with flag, pc := Function.update s.pc p .undo }
    else s
  | .releaseDev p =>
    -- `release` is called once for each successful open
    if s.pc p = .idle ∧ s.files ≠ 0 then
      let (flag, pending) := d.releaseTest s.flag
      if pending then
        { s with flag, files := s.files - 1, pc := Function.update s.pc p .inc }
      else { s with flag, files := s.files - 1, returned := s.returned ++ [(p, 0)] }
    else s
  | .finish p =>
    match s.pc p with
    | .idle => s
    | .undo => { s with
        flag := atomicInc s.flag, pc := Function.update s.pc p .idle,
        returned := s.returned ++ [(p, -ebusy)] }
    | .inc => { s with
        flag := atomicInc s.flag, pc := Function.update s.pc p .idle,
        returned := s.returned ++ [(p, 0)] }

def machine (P : Type*) [DecidableEq P] : Machine (State P) (Act P) := ⟨.start, d.step⟩

variable {d}

theorem step_openDev {s : State P} {p : P} (hp : s.pc p = .idle) :
    d.step s (.openDev p) = if s.flag = 1
      then { s with flag := 0, files := s.files + 1, returned := s.returned ++ [(p, 0)] }
      else { s with flag := s.flag - 1, pc := Function.update s.pc p .undo } := by
  rw [step, if_pos hp, d.opens]
  by_cases h1 : s.flag = 1
  · simp [h1]
  · have hne : (s.flag - 1 == 0) = false := beq_eq_false_iff_ne.mpr (by omega)
    simp [h1, hne]

/-- The release of a file that gives its place back neither at once nor later. -/
def Drops (d : Driver) (s : State P) (a : Act P) : Prop :=
  ∃ p, a = .releaseDev p ∧ s.pc p = .idle ∧ s.files ≠ 0 ∧ d.releaseTest s.flag = (s.flag, false)

omit [DecidableEq P] in
theorem drops_releaseDev {s : State P} {p : P} (hp : s.pc p = .idle ∧ s.files ≠ 0) :
    d.Drops s (.releaseDev p) ↔ d.releaseTest s.flag = (s.flag, false) := by
  constructor
  · intro h
    obtain ⟨q, hq, -, -, hrel⟩ := h
    exact hrel
  · intro hrel
    exact ⟨p, rfl, hp.1, hp.2, hrel⟩

variable [Fintype P]

/-- The accounting of a step in which process `p` moves to `v` and `k` places are lost. -/
theorem moved_sound {s s' : State P} (hs : s.Sound) (p : P) (v : Pc) (k : Nat)
    (hpc : s'.pc = Function.update s.pc p v)
    (hplaces : s'.flag + v.undoes.toNat + s'.files + v.increments.toNat + k =
      s.flag + (s.pc p).undoes.toNat + s.files + (s.pc p).increments.toNat)
    (hfloor : s.flag + (s.pc p).undoes.toNat ≤ s'.flag + v.undoes.toNat ∨ 0 ≤ s'.flag) :
    s'.Sound ∧ s'.places = s.places - k := by
  have hsf := hs.floor
  have hsc := hs.ceiling
  have hu : s'.undoing + (s.pc p).undoes.toNat = s.undoing + v.undoes.toNat := by
    unfold State.undoing
    rw [hpc]
    exact countWhere_update _ _ _ _
  have hi : s'.incrementing + (s.pc p).increments.toNat =
      s.incrementing + v.increments.toNat := by
    unfold State.incrementing
    rw [hpc]
    exact countWhere_update _ _ _ _
  have hkept : s'.places = s.places - k := by
    unfold State.places
    omega
  refine ⟨⟨by omega, ?_⟩, hkept⟩
  rw [hkept]
  omega

theorem openDev_sound {s : State P} (hs : s.Sound) (p : P) :
    (d.step s (.openDev p)).Sound ∧ (d.step s (.openDev p)).places = s.places := by
  by_cases hp : s.pc p = .idle
  · rw [step_openDev hp, ← Int.sub_zero s.places]
    by_cases h1 : s.flag = 1
    · rw [if_pos h1]
      refine moved_sound hs p .idle 0 ?_ ?_ (Or.inr (Int.le_refl 0))
      · rw [← hp, Function.update_eq_self]
      · simp only [h1, hp, Pc.undoes, Pc.increments, Bool.toNat_false]
        omega
    · rw [if_neg h1]
      refine moved_sound hs p .undo 0 rfl ?_ (Or.inl ?_)
      · simp only [hp, Pc.undoes, Pc.increments, Bool.toNat_false, Bool.toNat_true]
        omega
      · simp [hp, Pc.undoes]
  · rw [step, if_neg hp]
    exact ⟨hs, rfl⟩

theorem finish_sound {s : State P} (hs : s.Sound) (p : P) :
    (d.step s (.finish p)).Sound ∧ (d.step s (.finish p)).places = s.places := by
  rw [← Int.sub_zero s.places]
  cases hp : s.pc p with
  | idle =>
    simp only [step, hp]
    exact ⟨hs, (Int.sub_zero _).symm⟩
  | undo =>
    simp only [step, hp]
    refine moved_sound hs p .idle 0 rfl ?_ (Or.inl ?_)
    · simp only [hp, atomicInc, Pc.undoes, Pc.increments, Bool.toNat_false, Bool.toNat_true]
      omega
    · simp [hp, atomicInc, Pc.undoes]
  | inc =>
    simp only [step, hp]
    refine moved_sound hs p .idle 0 rfl ?_ (Or.inl ?_)
    · simp only [hp, atomicInc, Pc.undoes, Pc.increments, Bool.toNat_false, Bool.toNat_true]
      omega
    · simp [hp, atomicInc, Pc.undoes]

/-- A release keeps the places unless it drops its own. -/
theorem releaseDev_sound {s : State P} (hs : s.Sound) (p : P) :
    (d.step s (.releaseDev p)).Sound ∧
      (¬ d.Drops s (.releaseDev p) → (d.step s (.releaseDev p)).places = s.places) ∧
      (d.Drops s (.releaseDev p) → (d.step s (.releaseDev p)).places = s.places - 1) := by
  by_cases hp : s.pc p = .idle ∧ s.files ≠ 0
  · have hdrops := drops_releaseDev (d := d) hp
    obtain ⟨hidle, hfiles⟩ := hp
    have hself : s.pc = Function.update s.pc p .idle := by rw [← hidle, Function.update_eq_self]
    rw [hdrops]
    rcases d.releases s.flag with hrel | hrel | hrel
    · have hkept : (d.step s (.releaseDev p)).Sound ∧
          (d.step s (.releaseDev p)).places = s.places - (0 : Nat) := by
        rw [step, if_pos ⟨hidle, hfiles⟩, hrel]
        simp only [Bool.false_eq_true, ↓reduceIte]
        refine moved_sound hs p .idle 0 hself ?_ (Or.inl ?_)
        · simp only [hidle, Pc.undoes, Pc.increments, Bool.toNat_false]
          omega
        · simp only [hidle, Pc.undoes, Bool.toNat_false]
          omega
      refine ⟨hkept.1, fun _ => by simpa using hkept.2, fun h => ?_⟩
      have hflag := congrArg Prod.fst (hrel.symm.trans h)
      simp at hflag
    · have hkept : (d.step s (.releaseDev p)).Sound ∧
          (d.step s (.releaseDev p)).places = s.places - (0 : Nat) := by
        rw [step, if_pos ⟨hidle, hfiles⟩, hrel]
        simp only [↓reduceIte]
        refine moved_sound hs p .inc 0 rfl ?_ (Or.inl ?_)
        · simp only [hidle, Pc.undoes, Pc.increments, Bool.toNat_false, Bool.toNat_true]
          omega
        · simp only [hidle, Pc.undoes, Bool.toNat_false]
          omega
      refine ⟨hkept.1, fun _ => by simpa using hkept.2, fun h => ?_⟩
      have hpending := congrArg Prod.snd (hrel.symm.trans h)
      simp at hpending
    · have hlost : (d.step s (.releaseDev p)).Sound ∧
          (d.step s (.releaseDev p)).places = s.places - (1 : Nat) := by
        rw [step, if_pos ⟨hidle, hfiles⟩, hrel]
        simp only [Bool.false_eq_true, ↓reduceIte]
        refine moved_sound hs p .idle 1 hself ?_ (Or.inl ?_)
        · simp only [hidle, Pc.undoes, Pc.increments, Bool.toNat_false]
          omega
        · simp only [hidle, Pc.undoes, Bool.toNat_false]
          omega
      exact ⟨hlost.1, fun h => absurd hrel h, fun _ => by simpa using hlost.2⟩
  · rw [step, if_neg hp]
    refine ⟨hs, fun _ => rfl, fun hd => ?_⟩
    obtain ⟨q, hq, hidle, hfiles, -⟩ := hd
    cases hq
    exact absurd ⟨hidle, hfiles⟩ hp

/-- Only a release that drops its place changes the accounting. -/
theorem step_sound {s : State P} (hs : s.Sound) (a : Act P) :
    (d.step s a).Sound ∧ (¬ d.Drops s a → (d.step s a).places = s.places) ∧
      (d.Drops s a → (d.step s a).places = s.places - 1) := by
  cases a with
  | openDev p =>
    have h := openDev_sound (d := d) hs p
    refine ⟨h.1, fun _ => h.2, fun hd => ?_⟩
    obtain ⟨q, hq, -⟩ := hd
    cases hq
  | releaseDev p => exact releaseDev_sound hs p
  | finish p =>
    have h := finish_sound (d := d) hs p
    refine ⟨h.1, fun _ => h.2, fun hd => ?_⟩
    obtain ⟨q, hq, -⟩ := hd
    cases hq

end Driver

end KernelDrivers.ExclusiveOpen
