import KernelDrivers.Irq.BottomHalf

namespace KernelDrivers.Irq

open Framework

variable {n : Nat}

/-- What every run of interrupts and bottom halves keeps: the handlers of the interrupts
have run to their end, and the bottom half has a key to load or to count for whenever it is
scheduled or running. -/
structure Shape (s : Act n) : Prop where
  tops : ∀ k, s.live (.irq k) = true ∧ s.queued (.irq k) = false ∧ s.running (.irq k) = none
  bottom : s.running .bh = none ∨ s.running .bh = some [] ∨
    (∃ k, s.running .bh = some [.countUp] ∧ s.data.pdev = some k) ∨ Unread s
  pointed : s.queued .bh = true ∨ Unread s → ∃ k, s.data.data = some k

theorem start_shape : Shape (machine n).init where
  tops _ := ⟨rfl, rfl, rfl⟩
  bottom := Or.inl rfl
  pointed h := by simp [machine, Activity.loaded, Unread] at h

/-- An interrupt leaves the data word pointing to its key and the bottom half scheduled. -/
theorem step_interrupt {s : Act n} (h : Shape s) (k : Fin n) :
    (machine n).step s (.interrupt k) =
      { s with
        data := { s.data with data := some k }
        queued := Function.update s.queued .bh true } := by
  obtain ⟨hlive, hqueued, hrun⟩ := h.tops k
  have hen : (handlers n).CanEnter s (.irq k) := ⟨hrun, Or.inr ⟨hlive, rfl⟩⟩
  have hq : Function.update s.queued (.irq k) false = s.queued := by
    rw [← hqueued, Function.update_eq_self]
  have hr : Function.update s.running (.irq k) none = s.running := by
    rw [← hrun, Function.update_eq_self]
  simp only [machine, Event.acts, List.foldl_cons, List.foldl_nil, Handlers.step, if_pos hen, hq]
  simp [handlers, doKeyIrqTp, Handlers.perform, hr]

theorem step_start {s : Act n} (hr : s.running .bh = none) (hq : s.queued .bh = true) :
    (machine n).step s .start =
      { s with
        queued := Function.update s.queued .bh false
        running := Function.update s.running .bh (some (doBhKey n)) } := by
  have hen : (handlers n).CanEnter s .bh := ⟨hr, Or.inl hq⟩
  simp only [machine, Event.acts, List.foldl_cons, List.foldl_nil, Handlers.step, if_pos hen]
  rfl

theorem step_start_idle {s : Act n} (h : ¬ (s.running .bh = none ∧ s.queued .bh = true)) :
    (machine n).step s .start = s := by
  have hen : ¬ (handlers n).CanEnter s .bh := by
    rintro ⟨hr, hq | hraise⟩
    · exact h ⟨hr, hq⟩
    · exact absurd hraise.2 (by simp [handlers])
  simp only [machine, Event.acts, List.foldl_cons, List.foldl_nil, Handlers.step, if_neg hen]

/-- The bottom half loads the data word as it is now. -/
theorem step_proceed_load {s : Act n} (hr : Unread s) :
    (machine n).step s .proceed =
      { s with
        data := { s.data with pdev := s.data.data }
        running := Function.update s.running .bh (some [.countUp]) } := by
  unfold Unread doBhKey at hr
  simp only [machine, Event.acts, List.foldl_cons, List.foldl_nil, Handlers.step, hr]
  rfl

theorem step_proceed_count {s : Act n} {k : Fin n} (hr : s.running .bh = some [.countUp])
    (hk : s.data.pdev = some k) :
    (machine n).step s .proceed =
      { s with
        data := { s.data with cnt := Function.update s.data.cnt k (s.data.cnt k + 1) }
        running := Function.update s.running .bh (some []) } := by
  simp only [machine, Event.acts, List.foldl_cons, List.foldl_nil, Handlers.step, hr]
  simp [handlers, Handlers.perform, countUp, hk]

theorem step_proceed_end {s : Act n} (hr : s.running .bh = some []) :
    (machine n).step s .proceed = { s with running := Function.update s.running .bh none } := by
  simp only [machine, Event.acts, List.foldl_cons, List.foldl_nil, Handlers.step, hr]

theorem step_proceed_idle {s : Act n} (hr : s.running .bh = none) :
    (machine n).step s .proceed = s := by
  simp only [machine, Event.acts, List.foldl_cons, List.foldl_nil, Handlers.step, hr]

theorem step_shape {s : Act n} (h : Shape s) (e : Event n) : Shape ((machine n).step s e) := by
  cases e with
  | interrupt k =>
    rw [step_interrupt h]
    exact ⟨fun j => by simpa using h.tops j, h.bottom, fun _ => ⟨k, rfl⟩⟩
  | start =>
    by_cases hgo : s.running .bh = none ∧ s.queued .bh = true
    · rw [step_start hgo.1 hgo.2]
      refine ⟨fun j => by simpa using h.tops j, ?_, fun _ => h.pointed (Or.inl hgo.2)⟩
      exact Or.inr (Or.inr (Or.inr (by simp [Unread])))
    · rw [step_start_idle hgo]
      exact h
  | proceed =>
    have htops (running : Option (List (Stmt n))) (j : Fin n) :
        s.live (.irq j) = true ∧ s.queued (.irq j) = false ∧
          Function.update s.running .bh running (.irq j) = none := by
      simpa using h.tops j
    rcases h.bottom with hr | hr | ⟨k, hr, hk⟩ | hr
    · rw [step_proceed_idle hr]
      exact h
    · rw [step_proceed_end hr]
      refine ⟨htops none, Or.inl (by simp), fun hq => ?_⟩
      rcases hq with hq | hq
      · exact h.pointed (Or.inl hq)
      · simp [Unread] at hq
    · rw [step_proceed_count hr hk]
      refine ⟨htops (some []), Or.inr (Or.inl (by simp)), fun hq => ?_⟩
      rcases hq with hq | hq
      · exact h.pointed (Or.inl hq)
      · simp [Unread, doBhKey] at hq
    · rw [step_proceed_load hr]
      obtain ⟨k, hk⟩ := h.pointed (Or.inr hr)
      exact ⟨htops (some [.countUp]), Or.inr (Or.inr (Or.inl ⟨k, by simp, hk⟩)), fun _ => ⟨k, hk⟩⟩

theorem run_shape (events : List (Event n)) : Shape ((machine n).run events) :=
  (machine n).run_invariant start_shape (fun _ e h => step_shape h e) events

instance (s : Act n) : Decidable (Unread s) := inferInstanceAs (Decidable (_ = _))

/-- The times that the bottom half is still going to count for key `k`, if nothing else is
pressed: now, after it has loaded the data word, and when it runs again. -/
def inHand (s : Act n) (k : Fin n) : Nat :=
  (if s.running .bh = some [.countUp] ∧ s.data.pdev = some k then 1 else 0) +
    (if Unread s ∧ s.data.data = some k then 1 else 0) +
    if s.queued .bh = true ∧ s.data.data = some k then 1 else 0

/-- What the counter of key `k` comes to when nothing else is pressed. -/
def due (s : Act n) (k : Fin n) : Int32 := s.data.cnt k + Int32.ofNat (inHand s k)

/-- Taken up in time, an interrupt adds one to what its key comes to. -/
theorem inHand_interrupt {s : Act n} {j : Fin n} (he : TakenUp s (.interrupt j)) (k : Fin n) :
    inHand { s with
      data := { s.data with data := some j }
      queued := Function.update s.queued .bh true } k = inHand s k + [j].count k := by
  obtain ⟨hq, hun⟩ := he
  by_cases hu : Unread s
  · simp only [inHand, Unread, hq, hun hu, Function.update_self, List.count_singleton]
    simp
  · have hu' := hu
    unfold Unread at hu'
    simp only [inHand, Unread, hq, hu', Function.update_self, List.count_singleton]
    simp

theorem due_proceed {s : Act n} (h : Shape s) (k : Fin n) :
    due ((machine n).step s .proceed) k = due s k := by
  rcases h.bottom with hr | hr | ⟨j, hr, hj⟩ | hr
  · rw [step_proceed_idle hr]
  · rw [step_proceed_end hr]
    simp [due, inHand, Unread, doBhKey, hr]
  · rw [step_proceed_count hr hj]
    by_cases hk : j = k
    · subst hk
      simp [due, inHand, Unread, doBhKey, hr, hj, Int32.ofNat_add, Int32.add_assoc]
    · simp [due, inHand, Unread, doBhKey, hr, hj, hk, Ne.symm hk]
  · rw [step_proceed_load hr]
    have hr' := hr
    unfold Unread doBhKey at hr'
    simp [due, inHand, Unread, doBhKey, hr']

theorem due_start {s : Act n} (k : Fin n) : due ((machine n).step s .start) k = due s k := by
  by_cases hgo : s.running .bh = none ∧ s.queued .bh = true
  · rw [step_start hgo.1 hgo.2]
    simp [due, inHand, Unread, doBhKey, hgo.1, hgo.2]
  · rw [step_start_idle hgo]

theorem interrupts_append (events more : List (Event n)) :
    interrupts (events ++ more) = interrupts events ++ interrupts more := List.filterMap_append

theorem step_due {s : Act n} (h : Shape s) {e : Event n} (he : TakenUp s e) (k : Fin n) :
    due ((machine n).step s e) k = due s k + Int32.ofNat ((interrupts [e]).count k) := by
  cases e with
  | interrupt j =>
    rw [step_interrupt h, due, due, inHand_interrupt he, Int32.ofNat_add, Int32.add_assoc]
    rfl
  | start => exact (due_start k).trans (Int32.add_zero _).symm
  | proceed => exact (due_proceed h k).trans (Int32.add_zero _).symm

/-- Taken up too late, it leaves the key that the data word pointed to one or two short. -/
theorem inHand_late {s : Act n} (h : Shape s) {key : Fin n}
    (he : ¬ TakenUp s (.interrupt key)) : ∃ i, ∃ d, (d = 1 ∨ d = 2) ∧
      inHand { s with
        data := { s.data with data := some key }
        queued := Function.update s.queued .bh true } i + d = inHand s i + [key].count i := by
  have hlate : s.queued .bh = true ∨ Unread s ∧ s.data.data ≠ some key := by
    simp only [TakenUp, not_and_or, Bool.not_eq_false, Classical.not_imp] at he
    exact he
  obtain ⟨i, hi⟩ := h.pointed (hlate.imp id And.left)
  rw [hi, ne_eq, Option.some.injEq] at hlate
  refine ⟨i, ?_⟩
  simp only [inHand, Unread, hi, Function.update_self, Option.some.injEq, true_and, and_true,
    List.count_singleton, beq_iff_eq]
  by_cases hik : key = i
  · have hq := hlate.resolve_right fun hun => hun.2 hik.symm
    exact ⟨1, Or.inl rfl, by simp [hik, hq]⟩
  · -- what was in hand for `i` is now counted for `key`
    by_cases hu : s.running .bh = some (doBhKey n)
    · by_cases hq : s.queued .bh = true
      · exact ⟨2, Or.inr rfl, by simp [hik, hu, hq]⟩
      · exact ⟨1, Or.inl rfl, by simp [hik, hu, hq]⟩
    · have hq := hlate.resolve_right fun hun => hu hun.1
      exact ⟨1, Or.inl rfl, by simp [hik, hu, hq]⟩

/-- The steps that the bottom half has before it until it is at rest. -/
def toDo (s : Act n) : Nat :=
  (if s.queued .bh = true then 4 else 0) + (s.running .bh).elim 0 (fun l => l.length + 1)

/-- Left alone, the bottom half comes to rest. -/
theorem comes_to_rest {s : Act n} (h : Shape s) : ∃ more, interrupts more = [] ∧
    ((machine n).runFrom s more).Quiet .bh ∧
      ∀ k, due ((machine n).runFrom s more) k = due s k := by
  have hnear (t : Act n) (ht : Shape t ∧ ∀ k, due t k = due s k) (hbusy : ¬ t.Quiet .bh) :
      ∃ e, (e = .start ∨ e = .proceed) ∧
        (Shape ((machine n).step t e) ∧ ∀ k, due ((machine n).step t e) k = due s k) ∧
          toDo ((machine n).step t e) < toDo t := by
    obtain ⟨ht, hsame⟩ := ht
    by_cases hr : t.running .bh = none
    · have hq : t.queued .bh = true := by
        by_contra hq
        exact hbusy ⟨Bool.eq_false_iff.mpr hq, hr⟩
      refine ⟨.start, Or.inl rfl, ⟨step_shape ht _, fun k => (due_start k).trans (hsame k)⟩, ?_⟩
      rw [step_start hr hq]
      simp [toDo, hr, hq, doBhKey]
    · refine ⟨.proceed, Or.inr rfl,
        ⟨step_shape ht _, fun k => (due_proceed ht k).trans (hsame k)⟩, ?_⟩
      rcases ht.bottom with hr' | hr' | ⟨j, hr', hj⟩ | hr'
      · exact absurd hr' hr
      · rw [step_proceed_end hr']
        simp [toDo, hr']
      · rw [step_proceed_count hr' hj]
        simp [toDo, hr']
      · rw [step_proceed_load hr']
        unfold Unread doBhKey at hr'
        simp [toDo, hr']
  obtain ⟨more, hall, ⟨-, hdue⟩, hquiet⟩ :=
    (machine n).reaches_of_measure toDo hnear ⟨h, fun _ => rfl⟩
  refine ⟨more, ?_, hquiet, hdue⟩
  rw [interrupts, List.filterMap_eq_nil_iff]
  intro e he
  rcases hall e he with rfl | rfl <;> rfl

theorem run_due {events : List (Event n)} (hm : (machine n).Meets TakenUp events) (k : Fin n) :
    due ((machine n).run events) k = Int32.ofNat ((interrupts events).count k) := by
  induction events using List.reverseRecOn with
  | nil => simp [due, inHand, Unread, doBhKey, interrupts, Machine.run, Machine.runFrom, machine,
      Activity.loaded, Dev.fresh]
  | append_singleton events e ih =>
    obtain ⟨hold, he⟩ := (Machine.meets_concat events e).mp hm
    rw [Machine.run_concat, step_due (run_shape events) he, ih hold, interrupts_append,
      List.count_append, Int32.ofNat_add]

theorem cnt_of_quiet {s : Act n} (h : s.Quiet .bh) (k : Fin n) : s.data.cnt k = due s k := by
  simp [due, inHand, Unread, h.1, h.2]

/-- While every interrupt is taken up in time, the counters are those of the direct handler
whenever the bottom half is at rest. The first interrupt that is not taken up in time makes
them differ, once the bottom half has come to rest behind it. -/
theorem deferred_counts (events : List (Event n)) (hm : (machine n).Meets TakenUp events) :
    (((machine n).run events).Quiet .bh →
      ((machine n).run events).data.cnt = direct (interrupts events)) ∧
    ∀ key, ¬ TakenUp ((machine n).run events) (.interrupt key) →
      ∃ more, interrupts more = [] ∧
        ((machine n).run (events ++ .interrupt key :: more)).Quiet .bh ∧
        ((machine n).run (events ++ .interrupt key :: more)).data.cnt ≠
          direct (interrupts (events ++ .interrupt key :: more)) := by
  constructor
  · intro hquiet
    funext k
    rw [cnt_of_quiet hquiet, run_due hm, direct_apply]
  · intro key hlate
    have hs := run_shape events
    obtain ⟨i, d, hd, hshort⟩ := inHand_late hs hlate
    obtain ⟨more, hnone, hquiet, hdue⟩ := comes_to_rest (step_shape hs (.interrupt key))
    have hrun : (machine n).run (events ++ .interrupt key :: more) =
        (machine n).runFrom ((machine n).step ((machine n).run events) (.interrupt key)) more :=
      (machine n).run_append events (.interrupt key :: more)
    refine ⟨more, hnone, hrun ▸ hquiet, fun heq => ?_⟩
    have hlast : interrupts (.interrupt key :: more) = [key] := congrArg (key :: ·) hnone
    have hi : due ((machine n).step ((machine n).run events) (.interrupt key)) i =
        due ((machine n).run events) i + Int32.ofNat ([key].count i) := by
      rw [run_due hm, ← Int32.ofNat_add, ← List.count_append, ← hlast, ← interrupts_append,
        ← direct_apply, ← heq, hrun, cnt_of_quiet hquiet, hdue]
    rw [step_interrupt hs, due, due, Int32.add_assoc, ← Int32.ofNat_add, ← hshort,
      Int32.ofNat_add, ← Int32.add_assoc] at hi
    have hzero := Int32.left_eq_add.mp hi
    rcases hd with rfl | rfl <;> exact absurd hzero (by decide)

/-- A key is pressed, and the bottom half runs. -/
def onePress (key : Fin 4) : List (Event 4) :=
  [.interrupt key, .start, .proceed, .proceed, .proceed]

/-- The press is counted; a press of key 1 before the bottom half has loaded the data word
would not be counted rightly. -/
theorem deferred_counts_onePress :
    ((machine 4).run (onePress 0)).data.cnt = direct (interrupts (onePress 0)) ∧
    ∃ more, interrupts more = [] ∧
      ((machine 4).run ([.interrupt 0, .start] ++ .interrupt 1 :: more)).Quiet .bh ∧
      ((machine 4).run ([.interrupt 0, .start] ++ .interrupt 1 :: more)).data.cnt ≠
        direct (interrupts ([.interrupt 0, .start] ++ .interrupt 1 :: more)) := by
  have hfirst : TakenUp (machine 4).init (.interrupt 0) := ⟨rfl, fun h => absurd h (by decide)⟩
  constructor
  · have hm : (machine 4).Meets TakenUp (onePress 0) :=
      ⟨hfirst, trivial, trivial, trivial, trivial, trivial⟩
    exact (deferred_counts (onePress 0) hm).1 ⟨by decide, by decide⟩
  · have hm : (machine 4).Meets TakenUp [.interrupt 0, .start] := ⟨hfirst, trivial, trivial⟩
    exact (deferred_counts [.interrupt 0, .start] hm).2 1
      fun h => absurd (h.2 (by decide)) (by decide)

/-- Two keys are pressed before the bottom half gets to run: one press is not counted. -/
theorem deferred_loses_interrupt :
    ¬ (((machine 4).run
        [.interrupt 0, .interrupt 1, .start, .proceed, .proceed, .proceed]).Quiet .bh →
      ((machine 4).run
        [.interrupt 0, .interrupt 1, .start, .proceed, .proceed, .proceed]).data.cnt =
          direct [0, 1]) := by
  intro h
  have hcnt := h ⟨by decide, by decide⟩
  exact absurd (congrFun hcnt 0) (by decide)

end KernelDrivers.Irq
