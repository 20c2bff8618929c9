import Mathlib.Data.List.Chain
import KernelDrivers.Framework.Machine

namespace KernelDrivers.Framework

/-- A timer that a module starts when it is loaded: what it is set to, when it is due, and what
the handler sets it to in the end, if it starts it again. -/
structure KernelTimer (E : Type*) where
  first : E
  due : Nat → E → Bool
  next : Nat → E → Option E

namespace KernelTimer

/-- What the handler has still to do, with what the timer was set to. -/
inductive Handler (E : Type*) where
  | print (expires : E)
  | restart (expires : E)

inductive Life where
  | loaded
  | exiting
  | gone
  deriving DecidableEq

/-- `now` is the time since the load, and `printed` has the times of the messages. -/
structure State (E : Type*) where
  now : Nat
  pending : Option E
  handler : Option (Handler E)
  life : Life
  printed : List Nat

inductive Act where
  | tick
  | expire
  | handler
  | exit
  | cancel

variable {E : Type*}

/-- Cancelling waits for the handler, which may start the timer once more, and then takes the timer
away. -/
def step (T : KernelTimer E) (s : State E) (a : Act) : State E :=
  match a with
  | .tick => { s with now := s.now + 1 }
  | .expire =>
    match s.pending, s.handler with
    | some e, none =>
      if T.due s.now e then { s with pending := none, handler := some (.print e) } else s
    | _, _ => s
  | .handler =>
    match s.handler with
    | none => s
    | some (.print e) =>
      { s with handler := some (.restart e), printed := s.printed ++ [s.now] }
    | some (.restart e) => { s with handler := none, pending := T.next s.now e }
  | .exit => if s.life = .loaded then { s with life := .exiting } else s
  | .cancel =>
    match s.life, s.handler with
    | .exiting, none => { s with life := .gone, pending := none }
    | _, _ => s

def machine (T : KernelTimer E) : Machine (State E) Act :=
  ⟨⟨0, some T.first, none, .loaded, []⟩, T.step⟩

variable {T : KernelTimer E} {s : State E}

/-- Nothing is left of the timer of a module that is gone, and a timer whose handler runs is not
pending. -/
structure Quiet (s : State E) : Prop where
  gone : s.life = .gone → s.pending = none ∧ s.handler = none
  alone : s.handler ≠ none → s.pending = none

theorem Quiet.step (h : Quiet s) (a : Act) : Quiet (T.step s a) := by
  obtain ⟨now, pending, handler, life, printed⟩ := s
  obtain ⟨hgone, halone⟩ := h
  simp only at hgone halone
  cases a with
  | tick => exact ⟨hgone, halone⟩
  | expire =>
    cases pending with
    | none => exact ⟨hgone, halone⟩
    | some e =>
      cases handler with
      | some c => exact absurd (halone (by simp)) (by simp)
      | none =>
        have hlife : life ≠ .gone := fun h => by simpa using (hgone h).1
        simp only [KernelTimer.step]
        split
        · exact ⟨fun h => absurd h hlife, fun _ => rfl⟩
        · exact ⟨hgone, halone⟩
  | handler =>
    cases handler with
    | none => exact ⟨hgone, halone⟩
    | some c =>
      have hlife : life ≠ .gone := fun h => by simpa using (hgone h).2
      cases c with
      | print e => exact ⟨fun h => absurd h hlife, fun _ => halone (by simp)⟩
      | restart e => exact ⟨fun h => absurd h hlife, fun h => absurd rfl h⟩
  | exit =>
    simp only [KernelTimer.step]
    split
    · exact ⟨fun h => Life.noConfusion h, halone⟩
    · exact ⟨hgone, halone⟩
  | cancel =>
    cases life with
    | loaded | gone => exact ⟨hgone, halone⟩
    | exiting =>
      cases handler with
      | some c => exact ⟨hgone, halone⟩
      | none => exact ⟨fun _ => ⟨rfl, rfl⟩, fun _ => rfl⟩

theorem run_quiet (acts : List Act) : Quiet (T.machine.run acts) := by
  apply T.machine.run_invariant
  · exact ⟨fun h => Life.noConfusion h, fun h => absurd rfl h⟩
  · exact fun s a h => h.step a

/-- Once the module is gone, it stays so and prints nothing more. -/
theorem gone_runFrom (h : Quiet s) (hgone : s.life = .gone) (more : List Act) :
    (T.machine.runFrom s more).life = .gone ∧ (T.machine.runFrom s more).printed = s.printed := by
  induction more generalizing s with
  | nil => exact ⟨hgone, rfl⟩
  | cons a more ih =>
    rw [Machine.runFrom_cons]
    have hsame : (T.step s a).life = .gone ∧ (T.step s a).printed = s.printed := by
      obtain ⟨hpending, hhandler⟩ := h.gone hgone
      cases a <;> simp [KernelTimer.step, hgone, hpending, hhandler]
    obtain ⟨hlife, hprinted⟩ := ih (h.step a) hsame.1
    exact ⟨hlife, hprinted.trans hsame.2⟩

/-- The exit ends as soon as a handler that runs is through, although it starts the timer. -/
theorem exit_ends (hexit : s.life = .exiting) :
    (T.machine.runFrom s [.handler, .handler, .cancel]).life = .gone := by
  obtain ⟨now, pending, handler, life, printed⟩ := s
  obtain rfl : life = .exiting := hexit
  match handler with
  | none | some (.print e) | some (.restart e) => rfl

/-- The exit of a module can always be ended, and after it the timer is not there any more. -/
def Unloads (T : KernelTimer E) (acts : List Act) : Prop :=
  ((T.machine.run acts).life = .exiting →
    (T.machine.run (acts ++ [.handler, .handler, .cancel])).life = .gone) ∧
  ((T.machine.run acts).life = .gone →
    (T.machine.run acts).pending = none ∧ (T.machine.run acts).handler = none ∧
      ∀ more, (T.machine.run (acts ++ more)).printed = (T.machine.run acts).printed)

theorem run_unloads (T : KernelTimer E) (acts : List Act) : T.Unloads acts := by
  constructor
  · intro hexit
    rw [Machine.run_append]
    exact exit_ends hexit
  · intro hgone
    have hquiet : Quiet (T.machine.run acts) := run_quiet acts
    obtain ⟨hpending, hhandler⟩ := hquiet.gone hgone
    refine ⟨hpending, hhandler, fun more => ?_⟩
    rw [Machine.run_append]
    exact (gone_runFrom hquiet hgone more).2

/-- The time of the last message, or of the load. -/
def State.last (s : State E) : Nat := s.printed.getLastD 0

/-- `armed` tells of the last message, the time and a setting of the timer that the next message
will be apart from the last one; `fired` what is known of a setting once it has been due. -/
structure Spaced (T : KernelTimer E) (apart : Nat → Nat → Prop) (armed : Nat → Nat → E → Prop)
    (fired : Nat → E → Prop) : Prop where
  first : armed 0 0 T.first
  wait : ∀ last now e, armed last now e → armed last (now + 1) e
  fire : ∀ last now e, last ≤ now → armed last now e → T.due now e = true →
    apart last now ∧ fired now e
  late : ∀ last now, apart last now → apart last (now + 1)
  lateFired : ∀ now e, fired now e → fired (now + 1) e
  again : ∀ last now e e', last ≤ now → fired now e → T.next now e = some e' → armed last now e'

variable {apart : Nat → Nat → Prop} {armed : Nat → Nat → E → Prop} {fired : Nat → E → Prop}

structure Keeping (apart : Nat → Nat → Prop) (armed : Nat → Nat → E → Prop)
    (fired : Nat → E → Prop) (s : State E) : Prop where
  chain : (0 :: s.printed).IsChain apart
  past : s.last ≤ s.now
  pending : ∀ e, s.pending = some e → armed s.last s.now e
  print : ∀ e, s.handler = some (.print e) → apart s.last s.now ∧ fired s.now e
  restart : ∀ e, s.handler = some (.restart e) → fired s.now e

theorem Keeping.step (h : Keeping apart armed fired s) (hquiet : Quiet s)
    (S : Spaced T apart armed fired) (a : Act) : Keeping apart armed fired (T.step s a) := by
  cases a with
  | tick =>
    refine ⟨h.chain, Nat.le_succ_of_le h.past, ?_, ?_, ?_⟩
    · exact fun e he => S.wait _ _ _ (h.pending e he)
    · exact fun e he => ⟨S.late _ _ (h.print e he).1, S.lateFired _ _ (h.print e he).2⟩
    · exact fun e he => S.lateFired _ _ (h.restart e he)
  | expire =>
    simp only [KernelTimer.step]
    split
    case h_2 => exact h
    case h_1 e hpending hhandler =>
      split
      case isFalse => exact h
      case isTrue hdue =>
        have hfire := S.fire _ _ e h.past (h.pending e hpending) hdue
        refine ⟨h.chain, h.past, fun e' he' => by simp at he', ?_, fun e' he' => by simp at he'⟩
        intro e' he'
        obtain rfl : e = e' := by simpa using he'
        exact hfire
  | handler =>
    simp only [KernelTimer.step]
    split
    case h_1 => exact h
    case h_2 e hhandler =>
      obtain ⟨hapart, hfired⟩ := h.print e hhandler
      have hlast : (s.printed ++ [s.now]).getLastD 0 = s.now := by simp [List.getLastD_eq_getLast?]
      have hpending : s.pending = none := hquiet.alone (by simp [hhandler])
      refine ⟨?_, Nat.le_of_eq hlast, ?_, fun e' he' => by simp at he', ?_⟩
      · apply h.chain.append (List.isChain_singleton s.now)
        intro last hl now hn
        obtain rfl : s.last = last := by simpa [List.getLast?_cons, State.last] using hl
        obtain rfl : s.now = now := by simpa using hn
        exact hapart
      · intro e' he'
        rw [hpending] at he'
        cases he'
      · intro e' he'
        obtain rfl : e = e' := by simpa using he'
        exact hfired
    case h_3 e hhandler =>
      refine ⟨h.chain, h.past, ?_, fun e' he' => by simp at he', fun e' he' => by simp at he'⟩
      exact fun e' he' => S.again _ _ e e' h.past (h.restart e hhandler) he'
  | exit =>
    simp only [KernelTimer.step]
    split
    · exact ⟨h.chain, h.past, h.pending, h.print, h.restart⟩
    · exact h
  | cancel =>
    simp only [KernelTimer.step]
    split
    · exact ⟨h.chain, h.past, fun e' he' => by simp at he', h.print, h.restart⟩
    · exact h

theorem run_keeping (S : Spaced T apart armed fired) (acts : List Act) :
    Keeping apart armed fired (T.machine.run acts) := by
  apply T.machine.run_induction (I := fun _ => Keeping apart armed fired)
  · refine ⟨List.isChain_singleton 0, Nat.le_refl 0, ?_, ?_, ?_⟩
    · intro e he
      obtain rfl : T.first = e := Option.some.inj he
      exact S.first
    · intro e he
      cases he
    · intro e he
      cases he
  · exact fun acts a h => h.step (run_quiet acts) S a

/-- A setting that stands for the `k`-th of the times that are a period apart. -/
structure Regular (T : KernelTimer E) (period : Nat) (stands : Nat → E → Prop) : Prop where
  first : stands 1 T.first
  due : ∀ k now e, stands (k + 1) e → k * period ≤ now → now ≤ (k + 1) * period →
    (T.due now e = true ↔ now = (k + 1) * period)
  next : ∀ k e, stands k e → ∃ e', T.next (k * period) e = some e' ∧ stands (k + 1) e'

/-- No handler runs and the timer is not due. -/
def State.idle (T : KernelTimer E) (s : State E) : Bool :=
  s.handler.isNone && !(s.pending.any (T.due s.now))

theorem idle_spec (h : s.idle T = true) :
    s.handler = none ∧ ∀ e, s.pending = some e → ¬ T.due s.now e = true := by
  simp only [State.idle, Bool.and_eq_true, Option.isNone_iff_eq_none, Bool.not_eq_true'] at h
  obtain ⟨hhandler, hnot⟩ := h
  refine ⟨hhandler, fun e he hdue => ?_⟩
  rw [he, Option.any_some, hdue] at hnot
  cases hnot

/-- Time only goes on when there is nothing to do. -/
def Prompt (T : KernelTimer E) (s : State E) (a : Act) : Prop := a = .tick → s.idle T = true

/-- Until the module is gone, the messages are those of the times that are over. -/
structure OnTime (period : Nat) (stands : Nat → E → Prop) (s : State E) : Prop where
  printed : s.printed = (List.range s.printed.length).map fun k => (k + 1) * period
  begun : s.printed.length * period ≤ s.now
  pending : ∀ e, s.handler = none → s.pending = some e →
    stands (s.printed.length + 1) e ∧ s.now ≤ (s.printed.length + 1) * period
  print : ∀ e, s.handler = some (.print e) →
    stands (s.printed.length + 1) e ∧ s.now = (s.printed.length + 1) * period
  restart : ∀ e, s.handler = some (.restart e) →
    stands s.printed.length e ∧ s.now = s.printed.length * period
  awake : s.life ≠ .gone → s.handler = none → s.pending ≠ none

variable {period : Nat} {stands : Nat → E → Prop}

theorem OnTime.step (h : OnTime period stands s) (R : Regular T period stands) {a : Act}
    (hprompt : Prompt T s a) : OnTime period stands (T.step s a) := by
  cases a with
  | tick =>
    obtain ⟨hhandler, hnot⟩ := idle_spec (hprompt rfl)
    refine ⟨h.printed, Nat.le_succ_of_le h.begun, ?_, ?_, ?_, h.awake⟩
    · intro e _ he
      obtain ⟨hstands, hle⟩ := h.pending e hhandler he
      have hne : s.now ≠ (s.printed.length + 1) * period := fun hnow =>
        hnot e he ((R.due _ _ e hstands h.begun hle).mpr hnow)
      exact ⟨hstands, Nat.lt_of_le_of_ne hle hne⟩
    · exact fun e he => by simp [KernelTimer.step, hhandler] at he
    · exact fun e he => by simp [KernelTimer.step, hhandler] at he
  | expire =>
    simp only [KernelTimer.step]
    split
    case h_2 => exact h
    case h_1 e hpending hhandler =>
      split
      case isFalse => exact h
      case isTrue hdue =>
        obtain ⟨hstands, hle⟩ := h.pending e hhandler hpending
        have hnow := (R.due _ _ e hstands h.begun hle).mp hdue
        refine ⟨h.printed, h.begun, fun e' he' => by simp at he', ?_, fun e' he' => by simp at he',
          fun _ he' => by simp at he'⟩
        intro e' he'
        obtain rfl : e = e' := by simpa using he'
        exact ⟨hstands, hnow⟩
  | handler =>
    simp only [KernelTimer.step]
    split
    case h_1 => exact h
    case h_2 e hhandler =>
      obtain ⟨hstands, hnow⟩ := h.print e hhandler
      refine ⟨?_, ?_, fun e' he' => by simp at he', fun e' he' => by simp at he', ?_,
        fun _ he' => by simp at he'⟩
      · simp only [List.length_append, List.length_singleton, List.range_succ, List.map_append,
          List.map_singleton, hnow]
        rw [← h.printed]
      · simp only [List.length_append, List.length_singleton]
        exact Nat.le_of_eq hnow.symm
      · intro e' he'
        obtain rfl : e = e' := by simpa using he'
        simp only [List.length_append, List.length_singleton]
        exact ⟨hstands, hnow⟩
    case h_3 e hhandler =>
      obtain ⟨hstands, hnow⟩ := h.restart e hhandler
      obtain ⟨e', hnext, hstands'⟩ := R.next _ e hstands
      rw [hnow, hnext]
      refine ⟨h.printed, Nat.le_refl _, ?_, fun e' he' => by simp at he',
        fun e' he' => by simp at he', fun _ _ => by simp⟩
      intro e₁ _ he₁
      obtain rfl : e' = e₁ := by simpa using he₁
      refine ⟨hstands', Nat.mul_le_mul_right period (Nat.le_succ _)⟩
  | exit =>
    simp only [KernelTimer.step]
    split
    · rename_i hlife
      exact ⟨h.printed, h.begun, h.pending, h.print, h.restart, fun _ => h.awake (by simp [hlife])⟩
    · exact h
  | cancel =>
    simp only [KernelTimer.step]
    split
    · exact ⟨h.printed, h.begun, fun e _ he => by simp at he, h.print, h.restart,
        fun hlife => absurd rfl hlife⟩
    · exact h

/-- `latest` tells of a setting that it is due at some time at the latest: the settings that are
made at a time are due within `bound` of it. -/
structure Bounded (T : KernelTimer E) (bound : Nat) (latest : Nat → E → Prop) : Prop where
  first : latest bound T.first
  due : ∀ t e, latest t e → T.due t e = true
  next : ∀ now e, ∃ e', T.next now e = some e' ∧ latest (now + bound) e'

/-- No message is more than `bound` behind the one before it or behind the load, and until the
module is gone the next one is still in time. -/
structure InTime (bound : Nat) (latest : Nat → E → Prop) (s : State E) : Prop where
  chain : (0 :: s.printed).IsChain fun a b => b ≤ a + bound
  pending : ∀ e, s.handler = none → s.pending = some e →
    ∃ t, latest t e ∧ s.now ≤ t ∧ t ≤ s.last + bound
  print : ∀ e, s.handler = some (.print e) → s.now ≤ s.last + bound
  restart : ∀ e, s.handler = some (.restart e) → s.now = s.last
  awake : s.life ≠ .gone → s.handler = none → s.pending ≠ none

variable {bound : Nat} {latest : Nat → E → Prop}

theorem InTime.step (h : InTime bound latest s) (B : Bounded T bound latest) {a : Act}
    (hprompt : Prompt T s a) : InTime bound latest (T.step s a) := by
  cases a with
  | tick =>
    obtain ⟨hhandler, hnot⟩ := idle_spec (hprompt rfl)
    refine ⟨h.chain, ?_, ?_, ?_, h.awake⟩
    · intro e _ he
      obtain ⟨t, hlatest, hle, hbound⟩ := h.pending e hhandler he
      have hne : s.now ≠ t := by
        rintro rfl
        exact hnot e he (B.due _ e hlatest)
      exact ⟨t, hlatest, Nat.lt_of_le_of_ne hle hne, hbound⟩
    · exact fun e he => by simp [KernelTimer.step, hhandler] at he
    · exact fun e he => by simp [KernelTimer.step, hhandler] at he
  | expire =>
    simp only [KernelTimer.step]
    split
    case h_2 => exact h
    case h_1 e hpending hhandler =>
      split
      case isFalse => exact h
      case isTrue =>
        obtain ⟨t, -, hle, hbound⟩ := h.pending e hhandler hpending
        exact ⟨h.chain, fun e' he' => by simp at he', fun _ _ => hle.trans hbound,
          fun e' he' => by simp at he', fun _ he' => by simp at he'⟩
  | handler =>
    simp only [KernelTimer.step]
    split
    case h_1 => exact h
    case h_2 e hhandler =>
      have hprint := h.print e hhandler
      refine ⟨?_, fun e' he' => by simp at he', fun e' he' => by simp at he', ?_,
        fun _ he' => by simp at he'⟩
      · apply h.chain.append (List.isChain_singleton s.now)
        intro last hl now hn
        obtain rfl : s.last = last := by simpa [List.getLast?_cons, State.last] using hl
        obtain rfl : s.now = now := by simpa using hn
        exact hprint
      · intro e' _
        simp [State.last, List.getLastD_eq_getLast?]
    case h_3 e hhandler =>
      have hnow := h.restart e hhandler
      obtain ⟨e', hnext, hlatest⟩ := B.next s.now e
      rw [hnext]
      refine ⟨h.chain, ?_, fun e₁ he₁ => by simp at he₁, fun e₁ he₁ => by simp at he₁,
        fun _ _ => by simp⟩
      intro e₁ _ he₁
      obtain rfl : e' = e₁ := by simpa using he₁
      exact ⟨s.now + bound, hlatest, Nat.le_add_right _ _, by rw [hnow]; rfl⟩
  | exit =>
    simp only [KernelTimer.step]
    split
    · rename_i hlife
      exact ⟨h.chain, h.pending, h.print, h.restart, fun _ => h.awake (by simp [hlife])⟩
    · exact h
  | cancel =>
    simp only [KernelTimer.step]
    split
    · exact ⟨h.chain, fun e _ he => by simp at he, h.print, h.restart,
        fun hlife => absurd rfl hlife⟩
    · exact h

/-- While time only goes on when there is nothing to do, each message comes within `bound` of the
one before it or of the load, and until the module is gone the next one is not overdue. -/
def Timely (T : KernelTimer E) (bound : Nat) (acts : List Act) : Prop :=
  T.machine.Meets (Prompt T) acts →
    (0 :: (T.machine.run acts).printed).IsChain (fun a b => b ≤ a + bound) ∧
      ((T.machine.run acts).life ≠ .gone →
        (T.machine.run acts).now ≤ (T.machine.run acts).last + bound)

theorem InTime.now_le (h : InTime bound latest s) (hlife : s.life ≠ .gone) :
    s.now ≤ s.last + bound := by
  match hhandler : s.handler with
  | none =>
    obtain ⟨e, he⟩ := Option.ne_none_iff_exists'.mp (h.awake hlife hhandler)
    obtain ⟨t, -, hle, hbound⟩ := h.pending e hhandler he
    exact hle.trans hbound
  | some (.print e) => exact h.print e hhandler
  | some (.restart e) => exact (h.restart e hhandler).trans_le (Nat.le_add_right _ _)

theorem run_timely (B : Bounded T bound latest) (acts : List Act) : T.Timely bound acts := by
  intro hprompt
  have hrun : InTime bound latest (T.machine.run acts) := by
    refine Machine.run_invariant_of_meets ?_ (fun s a ha hs => hs.step B ha) hprompt
    refine ⟨List.isChain_singleton 0, ?_, fun e he => by simp [machine] at he,
      fun e he => by simp [machine] at he, fun _ _ => by simp [machine]⟩
    intro e _ he
    obtain rfl : T.first = e := Option.some.inj he
    exact ⟨bound, B.first, Nat.zero_le _, Nat.le_add_left _ _⟩
  exact ⟨hrun.chain, hrun.now_le⟩

structure Once (s : State E) : Prop where
  before : s.pending ≠ none ∨ (∃ e, s.handler = some (.print e)) → s.printed = []
  atMost : s.printed.length ≤ 1

theorem Once.step (h : Once s) (hquiet : Quiet s) (hnext : ∀ now e, T.next now e = none) (a : Act) :
    Once (T.step s a) := by
  cases a with
  | tick => exact ⟨h.before, h.atMost⟩
  | expire =>
    simp only [KernelTimer.step]
    split
    case h_2 => exact h
    case h_1 e hpending hhandler =>
      split
      case isFalse => exact h
      case isTrue =>
        exact ⟨fun _ => h.before (Or.inl (by simp [hpending])), h.atMost⟩
  | handler =>
    simp only [KernelTimer.step]
    split
    case h_1 => exact h
    case h_2 e hhandler =>
      have hpending : s.pending = none := hquiet.alone (by simp [hhandler])
      have hprinted := h.before (Or.inr ⟨e, hhandler⟩)
      refine ⟨fun hbefore => ?_, by simp [hprinted]⟩
      rcases hbefore with hsome | ⟨e', he'⟩
      · exact absurd hpending hsome
      · simp at he'
    case h_3 e hhandler =>
      refine ⟨fun hbefore => ?_, h.atMost⟩
      simp [hnext] at hbefore
  | exit =>
    simp only [KernelTimer.step]
    split
    · exact ⟨h.before, h.atMost⟩
    · exact h
  | cancel =>
    simp only [KernelTimer.step]
    split
    · refine ⟨fun hbefore => ?_, h.atMost⟩
      rcases hbefore with hsome | hprint
      · exact absurd rfl hsome
      · exact h.before (Or.inr hprint)
    · exact h

theorem run_once (hnext : ∀ now e, T.next now e = none) (acts : List Act) :
    (T.machine.run acts).printed.length ≤ 1 := by
  have hrun := T.machine.run_induction (I := fun _ => Once)
    ⟨fun _ => rfl, Nat.zero_le 1⟩ (fun acts a h => h.step (run_quiet acts) hnext a) acts
  exact hrun.atMost

end KernelTimer

end KernelDrivers.Framework
