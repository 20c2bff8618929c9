import KernelDrivers.Kbufdrv.Load

namespace KernelDrivers.Kbufdrv.Publish

open Framework Kernel Load

/-- What `kbuf_read` and `kbuf_write` synchronise on. -/
inductive Sync where
  | waitr
  | waitw
  | mutex
  deriving DecidableEq

/-- A statement of `kbuf_init` that has taken effect. -/
inductive Step where
  | acquire (r : Res)
  | release (r : Res)
  | init (i : Nat) (o : Sync)
  deriving DecidableEq

/-- What the module holds, and which objects of a device are initialised. -/
structure Progress where
  ledger : Ledger Res
  ready : Nat → Sync → Bool

namespace Progress

def start : Progress := ⟨Ledger.empty, fun _ _ => false⟩

def after (s : Progress) : Step → Progress
  | .acquire r => { s with ledger := s.ledger.acquire r }
  | .release r => { s with ledger := s.ledger.release r }
  | .init i o => { s with ready := Function.update s.ready i (Function.update (s.ready i) o true) }

def replay (s : Progress) (steps : List Step) : Progress := steps.foldl after s

/-- A registered device has its memory, and its objects are initialised. -/
def Published (objects : List Sync) (s : Progress) : Prop :=
  ∀ i, s.ledger.held (.cdev i) = true →
    s.ledger.held (.kbuf i) = true ∧ ∀ o ∈ objects, s.ready i o = true

end Progress

/-- A driver: what it synchronises on, what it does in a round of the loop over the devices
and whether the loop goes on; and the driver of which these are the steps. -/
structure Driver where
  objects : List Sync
  round : Fates → Nat → List Step × Bool
  load : Load.Driver

/-- `locks/mutex`: the body of the `for` loop. -/
def mutexRound (f : Fates) (i : Nat) : List Step × Bool :=
  if f.kbuf i = false then ([], false)
  else if (f.cdev i).isSome then ([.acquire (.kbuf i), .release (.kbuf i)], false)
  else if (f.device i).isSome then
    ([.acquire (.kbuf i), .acquire (.cdev i), .release (.cdev i), .release (.kbuf i)], false)
  else ([.acquire (.kbuf i), .acquire (.cdev i), .acquire (.device i), .init i .mutex], true)

/-- `kbufchardrv_poll`: the body of the `for` loop. -/
def pollRound (f : Fates) (i : Nat) : List Step × Bool :=
  if f.kbuf i = false then ([], false)
  else if (f.cdev i).isSome then ([.acquire (.kbuf i), .release (.kbuf i)], false)
  else if (f.device i).isSome then
    ([.acquire (.kbuf i), .acquire (.cdev i), .release (.cdev i), .release (.kbuf i)], false)
  else if f.proc i = false then
    ([.acquire (.kbuf i), .acquire (.cdev i), .acquire (.device i), .init i .waitr,
      .init i .waitw, .release (.cdev i), .release (.kbuf i), .release (.device i)], false)
  else
    ([.acquire (.kbuf i), .acquire (.cdev i), .acquire (.device i), .init i .waitr,
      .init i .waitw, .acquire (.proc i)], true)

/-- `locks/mutex` acquires and releases the same as `kbufchardrv`. -/
def mutex : Driver := ⟨[.mutex], mutexRound, chardrv⟩

def poll : Driver := ⟨[.waitr, .waitw], pollRound, Load.poll⟩

variable (D : Driver) (f : Fates)

/-- `while (i--)`. -/
def unwindSteps : Nat → List Step
  | 0 => []
  | i + 1 => (D.load.undo i).map .release ++ unwindSteps i

/-- The `for` loop with `left` rounds to go, and what follows it. -/
def loopSteps : Nat → Nat → List Step
  | 0, _ => []
  | left + 1, i =>
    (D.round f i).1 ++
      if (D.round f i).2 then loopSteps left (i + 1)
      else unwindSteps D i ++ [.release .cls, .release .region]

/-- The steps of `kbuf_init` for `n` devices. -/
def initSteps (n : Nat) : List Step :=
  if f.region.isSome then []
  else if f.cls.isSome then [.acquire .region, .release .region]
  else .acquire .region :: .acquire .cls :: loopSteps D f n 0

/-- A `cdev_add` of the load succeeds, which needs that the first one does. -/
def Registers (n : Nat) : Prop :=
  f.region = none ∧ f.cls = none ∧ 0 < n ∧ f.kbuf 0 = true ∧ f.cdev 0 = none

theorem replay_append (s : Progress) (steps more : List Step) :
    s.replay (steps ++ more) = (s.replay steps).replay more := List.foldl_append

/-- A round does to the ledger what the loop body does. -/
structure Matches (D : Driver) : Prop where
  round : ∀ f i (s : Init) ready, ∃ s', D.load.body f i s =
      (if (D.round f i).2 then .next s' else .error1 s') ∧
    (Progress.replay ⟨s.ledger, ready⟩ (D.round f i).1).ledger = s'.ledger

theorem mutex_matches : Matches mutex where
  round f i s ready := by
    show ∃ s', chardrvBody f i s = (if (mutexRound f i).2 then .next s' else .error1 s') ∧
      (Progress.replay ⟨s.ledger, ready⟩ (mutexRound f i).1).ledger = s'.ledger
    cases hk : f.kbuf i with
    | false => simp [chardrvBody, mutexRound, hk, Progress.replay]
    | true =>
      cases hc : f.cdev i with
      | some e =>
        simp [chardrvBody, mutexRound, hk, hc, status_of_some, Progress.replay, Progress.after,
          Init.acquire, Init.release]
      | none =>
        cases hd : f.device i <;>
          simp [chardrvBody, mutexRound, hk, hc, hd, status, Progress.replay, Progress.after,
            Init.acquire, Init.release]

theorem poll_matches : Matches poll where
  round f i s ready := by
    show ∃ s', pollBody f i s = (if (pollRound f i).2 then .next s' else .error1 s') ∧
      (Progress.replay ⟨s.ledger, ready⟩ (pollRound f i).1).ledger = s'.ledger
    cases hk : f.kbuf i with
    | false => simp [pollBody, chardrvBody, pollRound, hk, Progress.replay]
    | true =>
      cases hc : f.cdev i with
      | some e =>
        simp [pollBody, chardrvBody, pollRound, hk, hc, status_of_some, Progress.replay,
          Progress.after, Init.acquire, Init.release]
      | none =>
        cases hd : f.device i with
        | some e =>
          simp [pollBody, chardrvBody, pollRound, hk, hc, hd, status, Progress.replay,
            Progress.after, Init.acquire, Init.release]
        | none =>
          cases hp : f.proc i <;>
            simp [pollBody, chardrvBody, pollRound, hk, hc, hd, hp, status, Progress.replay,
              Progress.after, Init.acquire, Init.release]

theorem replay_released (s : Progress) (rs : List Res) :
    (s.replay (rs.map .release)).ledger = s.ledger.releaseAll rs := by
  induction rs generalizing s with
  | nil => rfl
  | cons r rs ih => exact ih (s.after (.release r))

theorem unwindSteps_ledger (i : Nat) (s : Progress) (init : Init) (hs : s.ledger = init.ledger) :
    (s.replay (unwindSteps D i)).ledger = (unwind D.load i init).ledger := by
  induction i generalizing s init with
  | zero => exact hs
  | succ i ih =>
    rw [unwindSteps, replay_append]
    apply ih
    rw [replay_released, hs]
    rfl

variable {D}

theorem loopSteps_ledger (hD : Matches D) (left i : Nat) (s : Progress) (init : Init)
    (hs : s.ledger = init.ledger) :
    (s.replay (loopSteps D f left i)).ledger = (loop D.load f left i init).ledger := by
  induction left generalizing i s init with
  | zero => exact hs
  | succ left ih =>
    obtain ⟨s', hbody, hround⟩ := hD.round f i init s.ready
    rw [← hs] at hround
    rw [loopSteps, replay_append]
    cases hok : (D.round f i).2 with
    | true =>
      rw [hok, if_pos rfl] at hbody
      simp only [loop, hbody, if_true]
      exact ih (i + 1) _ s' hround
    | false =>
      rw [hok, if_neg Bool.false_ne_true] at hbody
      simp only [loop, hbody, Bool.false_eq_true, if_false]
      rw [replay_append]
      have hunwound := unwindSteps_ledger D i _ s' hround
      simp only [Progress.replay, List.foldl_cons, List.foldl_nil, Progress.after, Init.release]
      rw [← hunwound]
      rfl

/-- Once all steps are done the ledger is that of the load. -/
theorem initSteps_ledger (hD : Matches D) (major n : Nat) :
    (Progress.start.replay (initSteps D f n)).ledger = (kbufInit D.load f major n).ledger := by
  cases hr : f.region with
  | some e =>
    have hneg := e.neg
    have hne : e.code ≠ 0 := Int.ne_of_lt hneg
    by_cases hm : major = 0 <;>
      simp [initSteps, kbufInit, hr, hm, status, hne, hneg, Progress.replay, Progress.start]
  | none =>
    cases hc : f.cls with
    | some e =>
      by_cases hm : major = 0 <;>
        simp [initSteps, kbufInit, hr, hc, hm, status, Progress.replay, Progress.start,
          Progress.after, Init.acquire, Init.release]
    | none =>
      have hload : kbufInit D.load f major n =
          loop D.load f n 0 ⟨0, (Ledger.empty.acquire Res.region).acquire .cls⟩ := by
        by_cases hm : major = 0 <;> simp [kbufInit, hr, hc, status, hm] <;> rfl
      rw [hload, initSteps, hr, hc]
      exact loopSteps_ledger f hD n 0 _ _ rfl

/-- What a round does about its device: it registers it as soon as there is memory for it,
and it does no harm when it cannot. -/
structure Rounds (D : Driver) : Prop where
  objects : D.objects ≠ []
  first : ∀ f i, f.kbuf i = true → f.cdev i = none →
    [.acquire (.kbuf i), .acquire (.cdev i)] <+: (D.round f i).1
  none : ∀ f i, ¬ (f.kbuf i = true ∧ f.cdev i = none) →
    (D.round f i).2 = false ∧ ∀ j, .acquire (.cdev j) ∉ (D.round f i).1

theorem mutex_rounds : Rounds mutex where
  objects := List.cons_ne_nil _ _
  first f i hk hc := by
    show _ <+: (mutexRound f i).1
    cases hd : f.device i <;> simp [mutexRound, hk, hc, hd]
  none f i hno := by
    show (mutexRound f i).2 = false ∧ ∀ j, _ ∉ (mutexRound f i).1
    cases hk : f.kbuf i with
    | false => simp [mutexRound, hk]
    | true =>
      cases hc : f.cdev i with
      | none => exact absurd ⟨hk, hc⟩ hno
      | some e => simp [mutexRound, hk, hc]

theorem poll_rounds : Rounds poll where
  objects := List.cons_ne_nil _ _
  first f i hk hc := by
    show _ <+: (pollRound f i).1
    cases hd : f.device i with
    | some e => simp [pollRound, hk, hc, hd]
    | none => cases hp : f.proc i <;> simp [pollRound, hk, hc, hd, hp]
  none f i hno := by
    show (pollRound f i).2 = false ∧ ∀ j, _ ∉ (pollRound f i).1
    cases hk : f.kbuf i with
    | false => simp [pollRound, hk]
    | true =>
      cases hc : f.cdev i with
      | none => exact absurd ⟨hk, hc⟩ hno
      | some e => simp [pollRound, hk, hc]

/-- Only what was acquired is held. -/
theorem acquired_of_held {s : Progress} {steps : List Step} {r : Res}
    (h : (s.replay steps).ledger.held r = true) :
    s.ledger.held r = true ∨ .acquire r ∈ steps := by
  induction steps generalizing s with
  | nil => exact Or.inl h
  | cons step steps ih =>
    rcases ih h with hheld | hmem
    · cases step with
      | acquire q =>
        by_cases hq : r = q
        · subst hq
          exact Or.inr List.mem_cons_self
        · exact Or.inl (by simpa [Progress.after, Ledger.acquire, hq] using hheld)
      | release q =>
        by_cases hq : r = q
        · subst hq
          simp [Progress.after, Ledger.release] at hheld
        · exact Or.inl (by simpa [Progress.after, Ledger.release, hq] using hheld)
      | init i o => exact Or.inl hheld
    · exact Or.inr (List.mem_cons_of_mem step hmem)

/-- A load whose first `cdev_add` does not succeed registers nothing. -/
theorem not_acquire_of_not_registers (hD : Rounds D) {f : Fates} {n : Nat}
    (h : ¬ Registers f n) (i : Nat) : .acquire (.cdev i) ∉ initSteps D f n := by
  cases hr : f.region with
  | some e => simp [initSteps, hr]
  | none =>
    cases hc : f.cls with
    | some e => simp [initSteps, hr, hc]
    | none =>
      cases n with
      | zero => simp [initSteps, hr, hc, loopSteps]
      | succ n =>
        have hfirst : ¬ (f.kbuf 0 = true ∧ f.cdev 0 = none) := fun hk =>
          h ⟨hr, hc, Nat.succ_pos n, hk⟩
        obtain ⟨hend, hnone⟩ := hD.none f 0 hfirst
        simp [initSteps, hr, hc, loopSteps, hend, hnone, unwindSteps]

/-- The steps up to the first successful `cdev_add`. -/
theorem registers_first_rounds (hD : Rounds D) {f : Fates} {n : Nat} (h : Registers f n) :
    [.acquire .region, .acquire .cls, .acquire (.kbuf 0), .acquire (.cdev 0)] <+:
      initSteps D f n := by
  obtain ⟨hr, hc, hn, hk, hcdev⟩ := h
  obtain ⟨left, rfl⟩ := Nat.exists_eq_succ_of_ne_zero (Nat.ne_of_gt hn)
  have hround := hD.first f 0 hk hcdev
  simp only [initSteps, hr, hc, Option.isSome_none, Bool.false_eq_true, if_false, loopSteps,
    List.cons_prefix_cons, true_and]
  exact hround.trans (List.prefix_append _ _)

theorem published_iff (hD : Rounds D) (f : Fates) (n : Nat) :
    (∀ past, past <+: initSteps D f n → (Progress.start.replay past).Published D.objects) ↔
      ¬ Registers f n := by
  constructor
  · intro h hreg
    obtain ⟨o, ho⟩ := List.exists_mem_of_ne_nil D.objects hD.objects
    have hpublished := h _ (registers_first_rounds hD hreg) 0 rfl
    exact absurd (hpublished.2 o ho) Bool.false_ne_true
  · intro hreg past hpast i hheld
    rcases acquired_of_held hheld with hstart | hmem
    · cases hstart
    · exact absurd (hpast.subset hmem) (not_acquire_of_not_registers hD hreg i)

/-- In both drivers every registered device is usable in every state of the load if and only
if the load registers none: the first one is registered before its objects are
initialised. -/
theorem load_published_iff (f : Fates) (n : Nat) :
    ((∀ past, past <+: initSteps poll f n →
        (Progress.start.replay past).Published poll.objects) ↔ ¬ Registers f n) ∧
      ((∀ past, past <+: initSteps mutex f n →
        (Progress.start.replay past).Published mutex.objects) ↔ ¬ Registers f n) :=
  ⟨published_iff poll_rounds f n, published_iff mutex_rounds f n⟩

def allSucceed : Fates :=
  ⟨none, none, fun _ => true, fun _ => none, fun _ => none, fun _ => true⟩

theorem load_registers_unready :
    (¬ ∀ past, past <+: initSteps poll allSucceed 16 →
      (Progress.start.replay past).Published poll.objects) ∧
    ¬ ∀ past, past <+: initSteps mutex allSucceed 16 →
      (Progress.start.replay past).Published mutex.objects := by
  let past : List Step :=
    [.acquire .region, .acquire .cls, .acquire (.kbuf 0), .acquire (.cdev 0)]
  constructor
  · intro h
    have hpublished := h past (by decide) 0 rfl
    exact absurd (hpublished.2 .waitr (by decide)) (by decide)
  · intro h
    have hpublished := h past (by decide) 0 rfl
    exact absurd (hpublished.2 .mutex (by decide)) (by decide)

end KernelDrivers.Kbufdrv.Publish
