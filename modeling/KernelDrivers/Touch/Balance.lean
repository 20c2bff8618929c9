import Mathlib.Data.List.Count
import KernelDrivers.Touch.Device

namespace KernelDrivers.Touch

open Framework

abbrev Act := Handlers.Act Obj Recv

/-- The probed driver: an interrupt is delivered at disable depth zero only. -/
def machine (D : Driver) : Machine (Activity Obj Stmt Ts) Act :=
  (handlers D (· == 0)).machine (.loaded (.fresh .probed) [])

/-- A bottom half that starts gets all its registers, and one that enables the interrupt
does so at a disable depth that is not zero. -/
def Balanced (D : Driver) (s : Activity Obj Stmt Ts) : Act → Prop
  | .enter .bottom recv => (handlers D (· == 0)).CanEnter s .bottom → recv.ret = 31
  | .advance .bottom => (s.running .bottom).bind List.head? = some .enableIrq → s.data.depth ≠ 0
  | _ => True

/-- How often a running handler still comes to a statement. -/
def pending (s : Activity Obj Stmt Ts) (o : Obj) (c : Stmt) : Nat :=
  ((s.running o).getD []).count c

/-- What the disables and enables of the interrupt have come to, and which are still to
come. -/
structure Books where
  depth : Nat
  toDisable : Nat
  toSchedule : Nat
  scheduled : Nat
  toEnable : Nat

def books (s : Activity Obj Stmt Ts) : Books where
  depth := s.data.depth
  toDisable := pending s .top .disableIrqNosync
  toSchedule := pending s .top .scheduleWork
  scheduled := (s.queued .bottom).toNat
  toEnable := pending s .bottom .enableIrq

/-- What a step does to the books, and whether it keeps the balance. -/
inductive Books.Move : Books → Bool → Books → Prop
  | other (b : Books) : Move b true b
  | interrupt (sc en : Nat) : Move ⟨0, 0, 0, sc, en⟩ true ⟨0, 1, 1, sc, en⟩
  | start (d di sh : Nat) (ok : Bool) : Move ⟨d, di, sh, 1, 0⟩ ok ⟨d, di, sh, 0, ok.toNat⟩
  | schedule (d di sh sc en : Nat) : Move ⟨d, di, sh + 1, sc, en⟩ true ⟨d, di, sh, 1, en⟩
  | disable (d di sh sc en : Nat) : Move ⟨d, di + 1, sh, sc, en⟩ true ⟨d + 1, di, sh, sc, en⟩
  | enable (d di sh sc en : Nat) :
    Move ⟨d, di, sh, sc, en + 1⟩ (d != 0) ⟨d - 1, di, sh, sc, en⟩

/-- Every disable, made or to come, has its enable to come, and there is at most one. -/
def Books.Even (b : Books) : Prop :=
  b.depth + b.toDisable = b.scheduled + b.toSchedule + b.toEnable ∧ b.depth + b.toDisable ≤ 1

/-- A disable is there or to come, and no enable is. -/
def Books.Stuck (b : Books) : Prop :=
  b.depth + b.toDisable = 1 ∧ b.scheduled + b.toSchedule + b.toEnable = 0

theorem Books.Move.even {b b' : Books} {ok : Bool} (h : b.Move ok b') (he : b.Even) :
    if ok then b'.Even else b'.Stuck := by
  unfold Books.Even Books.Stuck at *
  cases h with
  | other => exact he
  | interrupt sc en =>
    simp only at he ⊢
    simp only [if_true]
    omega
  | start d di sh ok => cases ok <;> simp at he ⊢ <;> omega
  | schedule d di sh sc en =>
    simp only [if_true] at he ⊢
    omega
  | disable d di sh sc en =>
    simp only [if_true] at he ⊢
    omega
  | enable d di sh sc en =>
    cases d <;> simp at he ⊢ <;> omega

theorem Books.Move.stuck {b b' : Books} {ok : Bool} (h : b.Move ok b') (hs : b.Stuck) :
    b'.Stuck := by
  unfold Books.Stuck at *
  cases h <;> simp at hs ⊢ <;> omega

/-- What every run keeps: the top half is at one of its statements, and the bottom half has
none of these. -/
structure Shape (s : Activity Obj Stmt Ts) : Prop where
  idle : s.main = []
  unqueued : s.queued .top = false
  top : ∀ cs, s.running .top = some cs → cs <:+ doFt5206Top
  bottom : ∀ cs, s.running .bottom = some cs → .scheduleWork ∉ cs ∧ .disableIrqNosync ∉ cs

variable {D : Driver} {s : Activity Obj Stmt Ts}

theorem doFt5206Bh_silent (D : Driver) (recv : Recv) :
    .scheduleWork ∉ doFt5206Bh D recv ∧ .disableIrqNosync ∉ doFt5206Bh D recv := by
  unfold doFt5206Bh
  by_cases hret : recv.ret ≠ 31
  · rw [if_pos hret]
    decide
  · rw [if_neg hret]
    simp

theorem doFt5206Bh_enables (D : Driver) (recv : Recv) :
    (doFt5206Bh D recv).count .enableIrq = (decide (recv.ret = 31)).toNat := by
  unfold doFt5206Bh
  by_cases hret : recv.ret = 31
  · have hnone : (List.map Stmt.inputReport (D.reports recv.regval)).count .enableIrq = 0 := by
      rw [List.count_eq_zero]
      simp
    simp [hret, hnone]
  · simp [hret]

theorem top_cases (h : Shape s) : s.running .top = none ∨ s.running .top = some [] ∨
    s.running .top = some [.disableIrqNosync] ∨ s.running .top = some doFt5206Top := by
  cases hr : s.running .top with
  | none => exact Or.inl rfl
  | some cs =>
    have hsuffix := h.top cs hr
    simp only [doFt5206Top, List.suffix_cons_iff, List.suffix_nil] at hsuffix
    rcases hsuffix with rfl | rfl | rfl
    · simp [doFt5206Top]
    · simp
    · simp

theorem step_enter_top (h : Shape s) (recv : Recv) :
    Shape ((machine D).step s (.enter .top recv)) ∧
      (books s).Move true (books ((machine D).step s (.enter .top recv))) := by
  simp only [machine, Handlers.machine, Handlers.step]
  by_cases hen : (handlers D (· == 0)).CanEnter s .top
  · rw [if_pos hen]
    obtain ⟨hr, hq | ⟨-, hraise⟩⟩ := hen
    · exact absurd (hq.symm.trans h.unqueued) (by decide)
    have hdepth : s.data.depth = 0 := by simpa [handlers] using hraise
    have hbefore : books s =
        ⟨0, 0, 0, (s.queued .bottom).toNat, pending s .bottom .enableIrq⟩ := by
      simp [books, pending, hr, hdepth]
    refine ⟨⟨h.idle, by simp, fun cs hcs => ?_, fun cs hcs => h.bottom cs (by simpa using hcs)⟩, ?_⟩
    · simp only [Function.update_self, Option.some.injEq] at hcs
      rw [← hcs]
      exact List.suffix_rfl
    · rw [hbefore]
      have hafter := Books.Move.interrupt (s.queued .bottom).toNat (pending s .bottom .enableIrq)
      convert hafter using 1
      simp [books, pending, handlers, doFt5206Top, hdepth]
  · rw [if_neg hen]
    exact ⟨h, .other _⟩

theorem step_enter_bottom (h : Shape s) (recv : Recv) :
    Shape ((machine D).step s (.enter .bottom recv)) ∧ ∃ ok,
      (books s).Move ok (books ((machine D).step s (.enter .bottom recv))) ∧
        (Balanced D s (.enter .bottom recv) ↔ ok = true) := by
  simp only [machine, Handlers.machine, Handlers.step, Balanced]
  by_cases hen : (handlers D (· == 0)).CanEnter s .bottom
  · rw [if_pos hen]
    obtain ⟨hr, hq | ⟨-, hraise⟩⟩ := id hen
    · refine ⟨⟨h.idle, by simpa using h.unqueued, fun cs hcs => h.top cs (by simpa using hcs),
        fun cs hcs => ?_⟩, decide (recv.ret = 31), ?_, by simp [hen]⟩
      · simp only [Function.update_self, Option.some.injEq] at hcs
        rw [← hcs]
        exact doFt5206Bh_silent D recv
      · have hbefore : books s = ⟨s.data.depth, pending s .top .disableIrqNosync,
            pending s .top .scheduleWork, 1, 0⟩ := by
          simp [books, pending, hr, hq]
        rw [hbefore]
        have hafter := Books.Move.start s.data.depth (pending s .top .disableIrqNosync)
          (pending s .top .scheduleWork) (decide (recv.ret = 31))
        convert hafter using 1
        simp [books, pending, handlers, doFt5206Bh_enables]
    · simp [handlers] at hraise
  · rw [if_neg hen]
    exact ⟨h, true, .other _, by simp [hen]⟩

theorem step_advance_top (h : Shape s) :
    Shape ((machine D).step s (.advance .top)) ∧
      (books s).Move true (books ((machine D).step s (.advance .top))) := by
  simp only [machine, Handlers.machine, Handlers.step]
  rcases top_cases h with hr | hr | hr | hr
  · simp only [hr]
    exact ⟨h, .other _⟩
  · simp only [hr]
    refine ⟨⟨h.idle, h.unqueued, fun cs hcs => ?_,
      fun cs hcs => h.bottom cs (by simpa using hcs)⟩, ?_⟩
    · simp at hcs
    · convert Books.Move.other (books s) using 1
      simp [books, pending, hr]
  · simp only [hr]
    refine ⟨⟨h.idle, by simpa [Handlers.perform, handlers] using h.unqueued, fun cs hcs => ?_,
      fun cs hcs => h.bottom cs (by simpa using hcs)⟩, ?_⟩
    · simp only [Handlers.perform_running, Function.update_self, Option.some.injEq] at hcs
      rw [← hcs]
      exact List.nil_suffix
    · have hbefore : books s = ⟨s.data.depth, 0 + 1, 0, (s.queued .bottom).toNat,
          pending s .bottom .enableIrq⟩ := by
        simp [books, pending, hr]
      rw [hbefore]
      convert Books.Move.disable _ _ _ _ _ using 1
      simp [books, pending, handlers, Handlers.perform, exec, depthAfter]
  · simp only [hr, doFt5206Top]
    refine ⟨⟨h.idle, by simpa [Handlers.perform, handlers] using h.unqueued, fun cs hcs => ?_,
      fun cs hcs => h.bottom cs (by simpa using hcs)⟩, ?_⟩
    · simp only [Handlers.perform_running, Function.update_self, Option.some.injEq] at hcs
      rw [← hcs]
      exact List.suffix_cons _ _
    · have hbefore : books s = ⟨s.data.depth, 1, 0 + 1, (s.queued .bottom).toNat,
          pending s .bottom .enableIrq⟩ := by
        simp [books, pending, hr, doFt5206Top]
      rw [hbefore]
      convert Books.Move.schedule _ _ _ _ _ using 1
      simp [books, pending, handlers, Handlers.perform, exec, depthAfter]

theorem step_advance_bottom (h : Shape s) :
    Shape ((machine D).step s (.advance .bottom)) ∧ ∃ ok,
      (books s).Move ok (books ((machine D).step s (.advance .bottom))) ∧
        (Balanced D s (.advance .bottom) ↔ ok = true) := by
  simp only [machine, Handlers.machine, Handlers.step, Balanced]
  cases hr : s.running .bottom with
  | none => exact ⟨h, true, .other _, by simp⟩
  | some cs =>
    obtain ⟨hnosched, hnodis⟩ := h.bottom cs hr
    cases cs with
    | nil =>
      refine ⟨⟨h.idle, h.unqueued, fun cs hcs => h.top cs (by simpa using hcs), fun cs hcs => ?_⟩,
        true, ?_, by simp⟩
      · simp at hcs
      · convert Books.Move.other (books s) using 1
        simp [books, pending, hr]
    | cons c cs =>
      rw [List.mem_cons, not_or] at hnosched hnodis
      have hqueues : (handlers D (· == 0)).queues c = none := by
        cases c <;> first | rfl | exact absurd rfl hnosched.1
      have hshape : Shape ((handlers D (· == 0)).perform
          { s with running := Function.update s.running .bottom (some cs) } c) := by
        refine ⟨h.idle, by simpa [Handlers.perform, hqueues] using h.unqueued,
          fun ds hds => h.top ds (by simpa using hds), fun ds hds => ?_⟩
        simp only [Handlers.perform_running, Function.update_self, Option.some.injEq] at hds
        rw [← hds]
        exact ⟨hnosched.2, hnodis.2⟩
      by_cases hc : c = .enableIrq
      · subst hc
        refine ⟨hshape, s.data.depth != 0, ?_, by simp⟩
        have hbefore : books s = ⟨s.data.depth, pending s .top .disableIrqNosync,
            pending s .top .scheduleWork, (s.queued .bottom).toNat, cs.count .enableIrq + 1⟩ := by
          simp [books, pending, hr]
        rw [hbefore]
        convert Books.Move.enable _ _ _ _ _ using 1
        simp [books, pending, handlers, Handlers.perform, exec, depthAfter]
      · refine ⟨hshape, true, ?_, by simp [hc]⟩
        have hdepth : depthAfter s.data.depth c = s.data.depth := by
          cases c <;> first | rfl | exact absurd rfl hc | exact absurd rfl hnodis.1
        have hbooks : books ((handlers D (· == 0)).perform
            { s with running := Function.update s.running .bottom (some cs) } c) = books s := by
          simp only [books, pending, Handlers.perform, hqueues]
          simp [hr, hc, handlers, exec, hdepth]
        rw [hbooks]
        exact .other _

/-- A step moves the books on, and a condition on the step says whether it keeps the
balance. -/
theorem step_move (h : Shape s) (a : Act) :
    Shape ((machine D).step s a) ∧ ∃ ok,
      (books s).Move ok (books ((machine D).step s a)) ∧ (Balanced D s a ↔ ok = true) := by
  cases a with
  | enter o recv =>
    cases o with
    | top =>
      obtain ⟨hshape, hmove⟩ := step_enter_top (D := D) h recv
      exact ⟨hshape, true, hmove, by simp [Balanced]⟩
    | bottom => exact step_enter_bottom h recv
  | advance o =>
    cases o with
    | top =>
      obtain ⟨hshape, hmove⟩ := step_advance_top (D := D) h
      exact ⟨hshape, true, hmove, by simp [Balanced]⟩
    | bottom => exact step_advance_bottom h
  | main =>
    have hsame : (machine D).step s .main = s := by
      simp only [machine, Handlers.machine, Handlers.step, h.idle]
    rw [hsame]
    exact ⟨h, true, .other _, by simp [Balanced]⟩

theorem run_books (acts : List Act) :
    Shape ((machine D).run acts) ∧
      (((machine D).Meets (Balanced D) acts ∧ (books ((machine D).run acts)).Even) ∨
        (¬ (machine D).Meets (Balanced D) acts ∧ (books ((machine D).run acts)).Stuck)) := by
  apply (machine D).run_induction (I := fun acts s => Shape s ∧
    (((machine D).Meets (Balanced D) acts ∧ (books s).Even) ∨
      (¬ (machine D).Meets (Balanced D) acts ∧ (books s).Stuck)))
  · refine ⟨⟨rfl, rfl, fun cs hcs => ?_, fun cs hcs => ?_⟩, Or.inl ⟨trivial, ?_⟩⟩
    · simp [machine, Handlers.machine, Activity.loaded] at hcs
    · simp [machine, Handlers.machine, Activity.loaded] at hcs
    · simp [Books.Even, books, pending, machine, Handlers.machine, Activity.loaded, Ts.fresh]
  · intro acts a ih
    obtain ⟨hshape, hbooks⟩ := ih
    obtain ⟨hshape', ok, hmove, hok⟩ := step_move (D := D) hshape a
    refine ⟨hshape', ?_⟩
    rw [Machine.meets_concat, hok]
    rcases hbooks with ⟨hm, heven⟩ | ⟨hm, hstuck⟩
    · have hnext := hmove.even heven
      cases ok with
      | true => exact Or.inl ⟨⟨hm, rfl⟩, hnext⟩
      | false => exact Or.inr ⟨fun h => absurd h.2 (by decide), hnext⟩
    · exact Or.inr ⟨fun h => hm h.1, hmove.stuck hstuck⟩

/-- Whenever the handlers are at rest, the next interrupt can be delivered if and only if
every bottom half got its registers and enabled the interrupt behind the disable. -/
theorem irq_balanced_iff (D : Driver) (acts : List Act) :
    let s := (machine D).run acts
    s.running .top = none → s.Quiet .bottom →
      (s.data.depth = 0 ↔ (machine D).Meets (Balanced D) acts) := by
  intro s htop hquiet
  obtain ⟨-, hbooks⟩ := run_books (D := D) acts
  have hrest : books s = ⟨s.data.depth, 0, 0, 0, 0⟩ := by
    simp [books, pending, htop, hquiet.1, hquiet.2]
  change _ ∧ (books s).Even ∨ _ ∧ (books s).Stuck at hbooks
  rw [hrest] at hbooks
  unfold Books.Even Books.Stuck at hbooks
  rcases hbooks with ⟨hm, heven⟩ | ⟨hm, hstuck⟩
  · exact iff_of_true (by simpa using heven.1) hm
  · exact iff_of_false (by simp at hstuck; omega) hm

/-- A touch that is handled as intended. -/
def handledTouch : List Act :=
  [.enter .top ⟨31, fun _ => 0⟩, .advance .top, .advance .top, .advance .top,
    .enter .bottom ⟨31, fun _ => 0⟩, .advance .bottom, .advance .bottom, .advance .bottom,
    .advance .bottom, .advance .bottom, .advance .bottom, .advance .bottom, .advance .bottom]

theorem irq_balanced_handledTouch :
    ((machine kernelCodeV1).run handledTouch).data.depth = 0 ↔
      (machine kernelCodeV1).Meets (Balanced kernelCodeV1) handledTouch :=
  irq_balanced_iff kernelCodeV1 handledTouch (by decide) ⟨by decide, by decide⟩

/-- A touch is handled, but the bottom half does not get its registers. -/
def failedRecv : List Act :=
  [.enter .top ⟨31, fun _ => 0⟩, .advance .top, .advance .top, .advance .top,
    .enter .bottom ⟨-5, fun _ => 0⟩, .advance .bottom, .advance .bottom]

/-- Another processor runs the bottom half to its end before the top half gets to its
`disable_irq_nosync`. -/
def overtaken : List Act :=
  [.enter .top ⟨31, fun _ => 0⟩, .advance .top,
    .enter .bottom ⟨31, fun _ => 0xff⟩, .advance .bottom, .advance .bottom, .advance .bottom,
    .advance .bottom, .advance .top, .advance .top]

theorem irq_left_disabled :
    (¬ ∀ acts, ((machine kernelCodeV1).run acts).running .top = none →
      ((machine kernelCodeV1).run acts).Quiet .bottom →
        ((machine kernelCodeV1).run acts).data.depth = 0) ∧
    ¬ ∀ acts, ((machine laomits).run acts).running .top = none →
      ((machine laomits).run acts).Quiet .bottom → ((machine laomits).run acts).data.depth = 0 := by
  constructor
  · intro h
    exact absurd (h failedRecv (by decide) ⟨by decide, by decide⟩) (by decide)
  · intro h
    exact absurd (h overtaken (by decide) ⟨by decide, by decide⟩) (by decide)

end KernelDrivers.Touch
