import KernelDrivers.Framework.Machine

namespace KernelDrivers.Framework

/-- A statement of the thread that sets a module up or takes it down. `start` lets the
hardware enter a handler; `stop` returns once a handler is quiet, and shuts it off. -/
inductive MainStmt (O ς : Type*) where
  | start (o : O)
  | stop (o : O)
  | stmt (c : ς)
  deriving DecidableEq

/-- The handler that a statement stops. -/
def MainStmt.stopped? {O ς : Type*} : MainStmt O ς → Option O
  | .stop o => some o
  | _ => none

/-- Handlers that run when the hardware enters them, or some time after they were queued.
The body of a handler depends on the data at its entry and on an input. -/
structure Handlers (O ς σ ι : Type*) where
  body : O → σ → ι → List ς
  exec : ς → σ → σ
  /-- The handler that a statement queues. -/
  queues : ς → Option O
  /-- Whether the hardware can enter a handler that is live. -/
  raises : σ → O → Bool
  /-- Whether stopping a handler deletes what is queued instead of waiting for it. -/
  cancels : O → Bool

/-- A module at work: for each handler whether it is live, whether it is queued, and what it
still has to do if it is running; and the statements the main thread has left. -/
structure Activity (O ς σ : Type*) where
  data : σ
  live : O → Bool
  queued : O → Bool
  running : O → Option (List ς)
  main : List (MainStmt O ς)

namespace Activity

variable {O ς σ : Type*} (s : Activity O ς σ)

def Quiet (o : O) : Prop := s.queued o = false ∧ s.running o = none

def Returned : Prop := s.main = []

/-- What is not live is quiet. -/
def Idle : Prop := ∀ o, s.live o = false → s.Quiet o

/-- The main thread takes the module down: it stops each live handler once. -/
structure Unloading : Prop where
  live : ∀ o, s.live o = true ↔ .stop o ∈ s.main
  once : s.main.Pairwise fun a b => ∀ o, a = .stop o → b ≠ .stop o
  noStart : ∀ o, .start o ∉ s.main

/-- A module whose handlers are all live and at rest, with `main` as its exit function. -/
def loaded (data : σ) (main : List (MainStmt O ς)) : Activity O ς σ :=
  ⟨data, fun _ => true, fun _ => false, fun _ => none, main⟩

/-- An exit function that stops every handler once. -/
theorem loaded_unloading (data : σ) {main : List (MainStmt O ς)} {order : List O}
    (hmain : main.filterMap MainStmt.stopped? = order) (hall : ∀ o, o ∈ order)
    (honce : order.Nodup) (hno : ∀ o, .start o ∉ main) : (loaded data main).Unloading where
  live o := by
    have hmem := hall o
    rw [← hmain, List.mem_filterMap] at hmem
    obtain ⟨m, hm, hstop⟩ := hmem
    cases m with
    | start q => cases hstop
    | stmt c => cases hstop
    | stop q =>
      obtain rfl := Option.some.inj hstop
      exact iff_of_true rfl hm
  once := by
    rw [← hmain] at honce
    refine (List.pairwise_filterMap.mp honce).imp fun hab o ha hb => ?_
    exact hab o (by rw [ha]; rfl) o (by rw [hb]; rfl) rfl
  noStart := hno

theorem loaded_idle (data : σ) (main : List (MainStmt O ς)) : (loaded data main).Idle :=
  fun _ h => absurd h (by simp [loaded])

end Activity

namespace Handlers

inductive Act (O ι : Type*) where
  | enter (o : O) (input : ι)
  | advance (o : O)
  | main

variable {O ς σ ι : Type*} [DecidableEq O] (H : Handlers O ς σ ι)

def perform (s : Activity O ς σ) (c : ς) : Activity O ς σ :=
  { s with
    data := H.exec c s.data
    queued := match H.queues c with
      | none => s.queued
      | some t => Function.update s.queued t true }

/-- A handler never runs twice at the same time. -/
def CanEnter (s : Activity O ς σ) (o : O) : Prop :=
  s.running o = none ∧ (s.queued o = true ∨ s.live o = true ∧ H.raises s.data o = true)

def CanStop (s : Activity O ς σ) (o : O) : Prop :=
  s.running o = none ∧ (s.queued o = false ∨ H.cancels o = true)

instance (s : Activity O ς σ) (o : O) : Decidable (H.CanEnter s o) :=
  inferInstanceAs (Decidable (_ ∧ (_ ∨ _ ∧ _)))

instance (s : Activity O ς σ) (o : O) : Decidable (H.CanStop s o) :=
  inferInstanceAs (Decidable (_ ∧ (_ ∨ _)))

def step (s : Activity O ς σ) : Act O ι → Activity O ς σ
  | .enter o input =>
    if H.CanEnter s o then
      { s with
        queued := Function.update s.queued o false
        running := Function.update s.running o (some (H.body o s.data input)) }
    else s
  | .advance o =>
    match s.running o with
    | none => s
    | some [] => { s with running := Function.update s.running o none }
    | some (c :: cs) => H.perform { s with running := Function.update s.running o (some cs) } c
  | .main =>
    match s.main with
    | [] => s
    | .stmt c :: rest => H.perform { s with main := rest } c
    | .start o :: rest => { s with main := rest, live := Function.update s.live o true }
    | .stop o :: rest =>
      if H.CanStop s o then
        { s with
          main := rest
          live := Function.update s.live o false
          queued := Function.update s.queued o false }
      else s

def machine (start : Activity O ς σ) : Machine (Activity O ς σ) (Act O ι) := ⟨start, H.step⟩

/-- What a step is: nothing, or the one move that its action stands for. -/
inductive Moves (s : Activity O ς σ) : Act O ι → Activity O ς σ → Prop
  | skip (a : Act O ι) : Moves s a s
  | entered {o : O} (input : ι) (hen : H.CanEnter s o) :
      Moves s (.enter o input) { s with
        queued := Function.update s.queued o false
        running := Function.update s.running o (some (H.body o s.data input)) }
  | ended {o : O} (hr : s.running o = some []) :
      Moves s (.advance o) { s with running := Function.update s.running o none }
  | executed {o : O} {c : ς} {cs : List ς} (hr : s.running o = some (c :: cs)) :
      Moves s (.advance o)
        (H.perform { s with running := Function.update s.running o (some cs) } c)
  | stmt {c : ς} {rest : List (MainStmt O ς)} (hm : s.main = .stmt c :: rest) :
      Moves s .main (H.perform { s with main := rest } c)
  | started {o : O} {rest : List (MainStmt O ς)} (hm : s.main = .start o :: rest) :
      Moves s .main { s with main := rest, live := Function.update s.live o true }
  | stopped {o : O} {rest : List (MainStmt O ς)} (hm : s.main = .stop o :: rest)
      (hstop : H.CanStop s o) :
      Moves s .main { s with
        main := rest
        live := Function.update s.live o false
        queued := Function.update s.queued o false }

/-- No statement queues a handler that is no longer live. -/
def InTime (s : Activity O ς σ) : Act O ι → Prop
  | .enter _ _ => True
  | .advance o => ∀ c cs t, s.running o = some (c :: cs) → H.queues c = some t → s.live t = true
  | .main => ∀ c cs t, s.main = .stmt c :: cs → H.queues c = some t → s.live t = true

/-- A statement of `o` queues `t`. -/
def Feeds (o t : O) : Prop := ∃ d input, ∃ c ∈ H.body o d input, H.queues c = some t

/-- What a running handler has left is from its body. -/
def Bodied (s : Activity O ς σ) : Prop :=
  ∀ o cs, s.running o = some cs → ∀ c ∈ cs, ∀ t, H.queues c = some t → H.Feeds o t

variable {H} {s : Activity O ς σ}

omit [DecidableEq O] in
theorem loaded_bodied (data : σ) (main : List (MainStmt O ς)) :
    H.Bodied (Activity.loaded data main) :=
  fun _ cs h => absurd h.symm (Option.some_ne_none cs)

@[simp] theorem perform_live (c : ς) : (H.perform s c).live = s.live := rfl

@[simp] theorem perform_running (c : ς) : (H.perform s c).running = s.running := rfl

@[simp] theorem perform_main (c : ς) : (H.perform s c).main = s.main := rfl

theorem perform_queued (c : ς) (o : O) :
    (H.perform s c).queued o = true ↔ s.queued o = true ∨ H.queues c = some o := by
  unfold perform
  cases hq : H.queues c with
  | none => simp
  | some t =>
    by_cases ht : o = t
    · subst ht
      simp
    · simp [ht, Ne.symm ht]

theorem perform_queued_of_ne {c : ς} {o : O} (h : H.queues c ≠ some o) :
    (H.perform s c).queued o = s.queued o := by
  have hiff := perform_queued (H := H) (s := s) c o
  rw [Bool.eq_iff_iff, hiff]
  tauto

theorem step_enter {o : O} (hen : H.CanEnter s o) (input : ι) :
    H.step s (.enter o input) = { s with
      queued := Function.update s.queued o false
      running := Function.update s.running o (some (H.body o s.data input)) } :=
  if_pos hen

theorem step_end {o : O} (hr : s.running o = some []) :
    H.step s (.advance o : Act O ι) =
      { s with running := Function.update s.running o none } := by
  simp only [step, hr]

theorem step_exec {o : O} {c : ς} {cs : List ς} (hr : s.running o = some (c :: cs)) :
    H.step s (.advance o : Act O ι) =
      H.perform { s with running := Function.update s.running o (some cs) } c := by
  simp only [step, hr]

theorem step_stmt {c : ς} {rest : List (MainStmt O ς)} (hm : s.main = .stmt c :: rest) :
    H.step s (.main : Act O ι) = H.perform { s with main := rest } c := by
  simp only [step, hm]

theorem step_start {o : O} {rest : List (MainStmt O ς)} (hm : s.main = .start o :: rest) :
    H.step s (.main : Act O ι) =
      { s with main := rest, live := Function.update s.live o true } := by
  simp only [step, hm]

theorem step_stop {o : O} {rest : List (MainStmt O ς)} (hm : s.main = .stop o :: rest)
    (hstop : H.CanStop s o) :
    H.step s (.main : Act O ι) = { s with
      main := rest
      live := Function.update s.live o false
      queued := Function.update s.queued o false } := by
  simp only [step, hm, if_pos hstop]

/-- All that a step can do. -/
theorem step_moves (s : Activity O ς σ) (a : Act O ι) : H.Moves s a (H.step s a) := by
  cases a with
  | enter o input =>
    by_cases hen : H.CanEnter s o
    · rw [step_enter hen]
      exact .entered input hen
    · simp only [step, if_neg hen]
      exact .skip _
  | advance o =>
    cases hr : s.running o with
    | none =>
      simp only [step, hr]
      exact .skip _
    | some cs =>
      cases cs with
      | nil =>
        rw [step_end hr]
        exact .ended hr
      | cons c cs =>
        rw [step_exec hr]
        exact .executed hr
  | main =>
    cases hm : s.main with
    | nil =>
      simp only [step, hm]
      exact .skip _
    | cons m rest =>
      cases m with
      | stmt c =>
        rw [step_stmt hm]
        exact .stmt hm
      | start o =>
        rw [step_start hm]
        exact .started hm
      | stop o =>
        by_cases hstop : H.CanStop s o
        · rw [step_stop hm hstop]
          exact .stopped hm hstop
        · simp only [step, hm, if_neg hstop]
          exact .skip _

/-- A handler that enters has its body to do. -/
theorem step_entered {o : O} (hen : H.CanEnter s o) (input : ι) :
    (H.step s (.enter o input)).running o = some (H.body o s.data input) ∧
      (H.step s (.enter o input)).data = s.data := by
  rw [step_enter hen]
  exact ⟨Function.update_self _ _ _, rfl⟩

/-- A running handler executes its next statement. -/
theorem step_advanced {o : O} {c : ς} {cs : List ς} (hr : s.running o = some (c :: cs)) :
    (H.step s (.advance o : Act O ι)).running o = some cs ∧
      (H.step s (.advance o : Act O ι)).data = H.exec c s.data := by
  rw [step_exec hr]
  exact ⟨Function.update_self _ _ _, rfl⟩

/-- What is true of all statements of the bodies stays true of the statements that the running
handlers have left. -/
theorem step_left {Q : O → ς → Prop} (hbody : ∀ o d input, ∀ c ∈ H.body o d input, Q o c)
    (h : ∀ o cs, s.running o = some cs → ∀ c ∈ cs, Q o c) (a : Act O ι) :
    ∀ o cs, (H.step s a).running o = some cs → ∀ c ∈ cs, Q o c := by
  have hmoves := H.step_moves s a
  generalize H.step s a = s' at hmoves ⊢
  intro q ds hq
  cases hmoves with
  | skip => exact h q ds hq
  | entered input hen =>
    rcases update_eq_some hq with ⟨rfl, hself⟩ | ⟨-, hother⟩
    · rw [← Option.some.inj hself]
      exact hbody q s.data input
    · exact h q ds hother
  | ended hr =>
    rcases update_eq_some hq with ⟨-, hself⟩ | ⟨-, hother⟩
    · exact absurd hself.symm (Option.some_ne_none ds)
    · exact h q ds hother
  | executed hr =>
    rcases update_eq_some hq with ⟨rfl, hself⟩ | ⟨-, hother⟩
    · rw [← Option.some.inj hself]
      exact fun d hd => h q _ hr d (List.mem_cons_of_mem _ hd)
    · exact h q ds hother
  | stmt hm => exact h q ds hq
  | started hm => exact h q ds hq
  | stopped hm hstop => exact h q ds hq

section Idle

theorem perform_idle {c : ς} (h : s.Idle) (hc : ∀ t, H.queues c = some t → s.live t = true) :
    (H.perform s c).Idle := by
  intro o ho
  obtain ⟨hq, hr⟩ := h o ho
  have hne : H.queues c ≠ some o := by
    intro heq
    have hlive := hc o heq
    rw [perform_live] at ho
    exact absurd (hlive.symm.trans ho) (by decide)
  exact ⟨(perform_queued_of_ne hne).trans hq, hr⟩

omit [DecidableEq O] in
/-- What is running is live. -/
theorem live_of_running (h : s.Idle) {o : O} {cs : List ς} (hr : s.running o = some cs) :
    s.live o = true := by
  by_contra hl
  have hquiet := h o (Bool.eq_false_iff.mpr hl)
  exact absurd (hr.symm.trans hquiet.2) (Option.some_ne_none cs)

omit [DecidableEq O] in
theorem CanEnter.live (h : s.Idle) {o : O} (hen : H.CanEnter s o) : s.live o = true := by
  obtain ⟨-, hqueued | hraised⟩ := hen
  · by_contra hl
    have hquiet := h o (Bool.eq_false_iff.mpr hl)
    exact absurd (hqueued.symm.trans hquiet.1) (by decide)
  · exact hraised.1

/-- A step of a live handler concerns only that handler. -/
theorem idle_of_live (h : s.Idle) {o : O} (hl : s.live o = true) (queued : Bool)
    (running : Option (List ς)) :
    ({ s with
      queued := Function.update s.queued o queued
      running := Function.update s.running o running } : Activity O ς σ).Idle := by
  intro q hq
  have hne : q ≠ o := by
    rintro rfl
    exact absurd (hl.symm.trans hq) (by decide)
  obtain ⟨hqueued, hrun⟩ := h q hq
  exact ⟨by simp [hne, hqueued], by simp [hne, hrun]⟩

theorem step_idle (h : s.Idle) {a : Act O ι} (ha : H.InTime s a) : (H.step s a).Idle := by
  have hmoves := H.step_moves s a
  generalize H.step s a = s' at hmoves ⊢
  cases hmoves with
  | skip => exact h
  | entered input hen => exact idle_of_live h (hen.live h) false _
  | @ended o hr =>
    have hmoved := idle_of_live h (live_of_running h hr) (s.queued o) none
    rwa [Function.update_eq_self] at hmoved
  | @executed o c cs hr =>
    have hmoved := idle_of_live h (live_of_running h hr) (s.queued o) (some cs)
    rw [Function.update_eq_self] at hmoved
    exact perform_idle hmoved fun t ht => ha c cs t hr ht
  | @stmt c rest hm =>
    exact perform_idle (s := { s with main := rest }) h fun t ht => ha c rest t hm ht
  | @started o rest hm =>
    intro q hq
    by_cases hqo : q = o
    · subst hqo
      simp at hq
    · exact h q (by simpa [hqo] using hq)
  | @stopped o rest hm hstop =>
    intro q hq
    by_cases hqo : q = o
    · subst hqo
      exact ⟨by simp, hstop.1⟩
    · obtain ⟨hqueued, hrun⟩ := h q (by simpa [hqo] using hq)
      exact ⟨by simp [hqo, hqueued], hrun⟩

end Idle

section Unload

omit [DecidableEq O] in
theorem unloading_congr {s' : Activity O ς σ} (h : s.Unloading) (hm : s'.main = s.main)
    (hl : s'.live = s.live) : s'.Unloading where
  live := by
    rw [hm, hl]
    exact h.live
  once := by
    rw [hm]
    exact h.once
  noStart := by
    rw [hm]
    exact h.noStart

theorem step_unloading (h : s.Unloading) (a : Act O ι) : (H.step s a).Unloading := by
  have hmoves := H.step_moves s a
  generalize H.step s a = s' at hmoves ⊢
  obtain ⟨hlive, honce, hno⟩ := id h
  cases hmoves with
  | skip => exact h
  | entered input hen => exact unloading_congr h rfl rfl
  | ended hr => exact unloading_congr h rfl rfl
  | executed hr => exact unloading_congr h rfl rfl
  | @stmt c rest hm =>
    rw [hm] at honce hno
    refine ⟨fun o => ?_, (List.pairwise_cons.mp honce).2,
      fun o ho => hno o (List.mem_cons_of_mem _ ho)⟩
    rw [perform_live, hlive, hm]
    simp
  | @started o rest hm =>
    refine absurd ?_ (hno o)
    rw [hm]
    exact List.mem_cons_self
  | @stopped o rest hm hstop =>
    rw [hm] at honce hno
    obtain ⟨hhead, htail⟩ := List.pairwise_cons.mp honce
    refine ⟨fun q => ?_, htail, fun o ho => hno o (List.mem_cons_of_mem _ ho)⟩
    by_cases hqo : q = o
    · subst hqo
      simp only [Function.update_self, Bool.false_eq_true, false_iff]
      exact fun hmem => hhead _ hmem q rfl rfl
    · simp [hqo, hlive, hm]

/-- Once the main thread has returned and what is not live is quiet, nothing moves again. -/
theorem returned_stable (h : s.Idle) (hu : s.Unloading) (hr : s.Returned) :
    (∀ o, s.live o = false ∧ s.Quiet o) ∧ ∀ acts : List (Act O ι), acts.foldl H.step s = s := by
  have hdead (o : O) : s.live o = false := by
    by_contra hl
    have hmem := (hu.live o).mp (by simpa using hl)
    rw [hr] at hmem
    exact absurd hmem List.not_mem_nil
  refine ⟨fun o => ⟨hdead o, h o (hdead o)⟩, fun acts => ?_⟩
  induction acts with
  | nil => rfl
  | cons a acts ih =>
    have hstep : H.step s a = s := by
      cases a with
      | enter o input =>
        have hen : ¬ H.CanEnter s o := fun hen => by
          have hl := hen.live h
          exact absurd (hl.symm.trans (hdead o)) (by decide)
        simp only [step, if_neg hen]
      | advance o => simp only [step, (h o (hdead o)).2]
      | main => simp only [step, show s.main = [] from hr]
    rw [List.foldl_cons, hstep]
    exact ih

/-- A run in which no statement queues a handler too late leaves nothing behind. -/
theorem inTime_unload {start : Activity O ς σ} (h : start.Idle) (hu : start.Unloading)
    {acts : List (Act O ι)} (hm : (H.machine start).Meets H.InTime acts)
    (hr : ((H.machine start).run acts).Returned) :
    (∀ o, ((H.machine start).run acts).live o = false ∧ ((H.machine start).run acts).Quiet o) ∧
      ∀ more, (H.machine start).run (acts ++ more) = (H.machine start).run acts := by
  have hidle : ((H.machine start).run acts).Idle :=
    Machine.run_invariant_of_meets (I := Activity.Idle) h (fun _ _ ha hi => step_idle hi ha) hm
  have hunload : ((H.machine start).run acts).Unloading :=
    (H.machine start).run_invariant hu (fun _ a hi => step_unloading hi a) acts
  obtain ⟨hquiet, hstable⟩ := returned_stable hidle hunload hr
  exact ⟨hquiet, fun more => ((H.machine start).run_append acts more).trans (hstable more)⟩

theorem step_bodied (h : H.Bodied s) (a : Act O ι) : H.Bodied (H.step s a) :=
  step_left (fun _ d input c hc _ ht => ⟨d, input, c, hc, ht⟩) h a

/-- The main thread stops the handlers that queue another before that one. -/
structure Ordered (H : Handlers O ς σ ι) (s : Activity O ς σ) : Prop where
  fed : ∀ o t, H.Feeds o t → s.live o = true → s.live t = true
  order : s.main.Pairwise fun a b => ∀ o t, H.Feeds o t → a = .stop t → b ≠ .stop o
  silent : ∀ c, .stmt c ∈ s.main → H.queues c = none

omit [DecidableEq O] in
theorem loaded_ordered (data : σ) {main : List (MainStmt O ς)} {order : List O}
    (hmain : main.filterMap MainStmt.stopped? = order)
    (horder : order.Pairwise fun t o => ¬ H.Feeds o t)
    (hsilent : ∀ c, .stmt c ∈ main → H.queues c = none) :
    Ordered H (.loaded data main) where
  fed _ _ _ h := h
  order := by
    rw [← hmain] at horder
    refine (List.pairwise_filterMap.mp horder).imp fun hab o t hf ha hb => ?_
    exact hab t (by rw [ha]; rfl) o (by rw [hb]; rfl) hf
  silent := hsilent

omit [DecidableEq O] in
theorem Ordered.inTime (h : Ordered H s) (hi : s.Idle) (hb : H.Bodied s) (a : Act O ι) :
    H.InTime s a := by
  cases a with
  | enter o input => trivial
  | advance o =>
    intro c cs t hr ht
    exact h.fed o t (hb o _ hr c List.mem_cons_self t ht) (live_of_running hi hr)
  | main =>
    intro c cs t hm ht
    have hnone := h.silent c (by rw [hm]; exact List.mem_cons_self)
    exact absurd (ht.symm.trans hnone) (Option.some_ne_none t)

omit [DecidableEq O] in
theorem Ordered.congr {s' : Activity O ς σ} (h : Ordered H s) (hm : s'.main = s.main)
    (hl : s'.live = s.live) : Ordered H s' where
  fed := by
    rw [hl]
    exact h.fed
  order := by
    rw [hm]
    exact h.order
  silent := by
    rw [hm]
    exact h.silent

theorem step_ordered (h : Ordered H s) (hu : s.Unloading) (a : Act O ι) :
    Ordered H (H.step s a) := by
  have hmoves := H.step_moves s a
  generalize H.step s a = s' at hmoves ⊢
  obtain ⟨hfed, horder, hsilent⟩ := id h
  cases hmoves with
  | skip => exact h
  | entered input hen => exact h.congr rfl rfl
  | ended hr => exact h.congr rfl rfl
  | executed hr => exact h.congr rfl rfl
  | @stmt c rest hm =>
    rw [hm] at horder hsilent
    exact ⟨hfed, (List.pairwise_cons.mp horder).2,
      fun d hd => hsilent d (List.mem_cons_of_mem _ hd)⟩
  | @started o rest hm =>
    refine absurd ?_ (hu.noStart o)
    rw [hm]
    exact List.mem_cons_self
  | @stopped t rest hm hstop =>
    rw [hm] at horder hsilent
    obtain ⟨hhead, htail⟩ := List.pairwise_cons.mp horder
    refine ⟨fun o q hf ho => ?_, htail, fun d hd => hsilent d (List.mem_cons_of_mem _ hd)⟩
    have hot : o ≠ t := by
      rintro rfl
      simp at ho
    have holive : s.live o = true := by simpa [hot] using ho
    by_cases hqt : q = t
    · -- `o` would still have to be stopped
      subst hqt
      have hmem := (hu.live o).mp holive
      rw [hm, List.mem_cons, MainStmt.stop.injEq] at hmem
      exact absurd rfl (hhead _ (hmem.resolve_left hot) o q hf rfl)
    · simpa [hqt] using hfed o q hf holive

/-- Stopping producers before their consumers leaves nothing behind in any run. -/
theorem ordered_unload {start : Activity O ς σ} (h : start.Idle) (hu : start.Unloading)
    (hb : H.Bodied start) (ho : Ordered H start) {acts : List (Act O ι)}
    (hr : ((H.machine start).run acts).Returned) :
    (∀ o, ((H.machine start).run acts).live o = false ∧ ((H.machine start).run acts).Quiet o) ∧
      ∀ more, (H.machine start).run (acts ++ more) = (H.machine start).run acts := by
  have hm : (H.machine start).Meets H.InTime acts :=
    Machine.meets_of_run_invariant
      (I := fun s => s.Idle ∧ s.Unloading ∧ H.Bodied s ∧ Ordered H s) ⟨h, hu, hb, ho⟩
      (fun s a hi => by
        obtain ⟨hidle, hunload, hbodied, hordered⟩ := hi
        exact ⟨step_idle hidle (hordered.inTime hidle hbodied a), step_unloading hunload a,
          step_bodied hbodied a, step_ordered hordered hunload a⟩)
      (fun s a hi => hi.2.2.2.inTime hi.1 hi.2.2.1 a) acts
  exact inTime_unload h hu hm hr

end Unload

section Late

/-- A continuation of the run leads from `s` to `s'`. -/
def Leads (H : Handlers O ς σ ι) (s s' : Activity O ς σ) : Prop :=
  ∃ acts : List (Act O ι), acts.foldl H.step s = s'

theorem Leads.refl (s : Activity O ς σ) : Leads H s s := ⟨[], rfl⟩

theorem Leads.step {s s' : Activity O ς σ} (a : Act O ι) (h : Leads H (H.step s a) s') :
    Leads H s s' := by
  obtain ⟨acts, hacts⟩ := h
  exact ⟨a :: acts, hacts⟩

theorem Leads.trans {s s' s'' : Activity O ς σ} (h : Leads H s s') (h' : Leads H s' s'') :
    Leads H s s'' := by
  obtain ⟨acts, rfl⟩ := h
  obtain ⟨more, rfl⟩ := h'
  exact ⟨acts ++ more, by rw [List.foldl_append]⟩

theorem Leads.bodied {s s' : Activity O ς σ} (h : Leads H s s') (hb : H.Bodied s) :
    H.Bodied s' := by
  obtain ⟨acts, rfl⟩ := h
  induction acts generalizing s with
  | nil => exact hb
  | cons a acts ih => exact ih (step_bodied hb a)

/-- A running handler that does not queue itself can come to its end; what is queued stays
queued. -/
theorem drain (o : O) (cs : List ς) (s : Activity O ς σ) (hr : s.running o = some cs)
    (hc : ∀ c ∈ cs, H.queues c ≠ some o) :
    ∃ s', Leads H s s' ∧ s'.running o = none ∧ s'.main = s.main ∧ s'.queued o = s.queued o ∧
      ∀ v, s.queued v = true → s'.queued v = true := by
  induction cs generalizing s with
  | nil =>
    have hstep := step_end (H := H) (ι := ι) hr
    exact ⟨_, .step (.advance o) (.refl _), by rw [hstep]; simp, by rw [hstep], by rw [hstep],
      fun v hv => by rw [hstep]; exact hv⟩
  | cons c cs ih =>
    have hstep := step_exec (H := H) (ι := ι) hr
    obtain ⟨s', hleads, hdone, hmain, hself, hkeep⟩ := ih (H.step s (.advance o : Act O ι))
      (by rw [hstep]; simp) (fun d hd => hc d (List.mem_cons_of_mem _ hd))
    rw [hstep] at hmain hself hkeep
    refine ⟨s', .step (.advance o) hleads, hdone, hmain, ?_, ?_⟩
    · exact hself.trans (perform_queued_of_ne (hc c List.mem_cons_self))
    · intro v hv
      exact hkeep v ((perform_queued c v).mpr (Or.inl hv))

/-- A handler that does not queue itself can be brought to a state in which the main thread
may stop it. -/
theorem settle [Inhabited ι] (o : O) (s : Activity O ς σ) (hb : H.Bodied s)
    (hself : ¬ H.Feeds o o) :
    ∃ s', Leads H s s' ∧ H.CanStop s' o ∧ s'.main = s.main ∧
      ∀ v, v ≠ o → s.queued v = true → s'.queued v = true := by
  have hbody {s : Activity O ς σ} (hb : H.Bodied s) {cs : List ς} (hr : s.running o = some cs) :
      ∀ c ∈ cs, H.queues c ≠ some o := fun c hc heq => hself (hb o cs hr c hc o heq)
  have hidle : ∃ s', Leads H s s' ∧ s'.running o = none ∧ s'.main = s.main ∧
      ∀ v, s.queued v = true → s'.queued v = true := by
    cases hr : s.running o with
    | none => exact ⟨s, .refl s, hr, rfl, fun _ hv => hv⟩
    | some cs =>
      obtain ⟨s', hleads, hdone, hmain, -, hkeep⟩ := drain o cs s hr (hbody hb hr)
      exact ⟨s', hleads, hdone, hmain, hkeep⟩
  obtain ⟨s', hleads, hdone, hmain, hkeep⟩ := hidle
  cases hq : s'.queued o with
  | false => exact ⟨s', hleads, ⟨hdone, Or.inl hq⟩, hmain, fun v _ hv => hkeep v hv⟩
  | true =>
    -- it runs once more, and after that nothing has queued it
    have hen : H.CanEnter s' o := ⟨hdone, Or.inl hq⟩
    have hb' := step_bodied (hleads.bodied hb) (.enter o default)
    obtain ⟨hrun, -⟩ := step_entered hen default
    obtain ⟨s'', hleads', hdone', hmain', hclear, hkeep'⟩ := drain o _ _ hrun (hbody hb' hrun)
    rw [step_enter hen] at hmain' hclear hkeep'
    refine ⟨s'', hleads.trans (.step _ hleads'), ⟨hdone', Or.inl ?_⟩, hmain'.trans hmain, ?_⟩
    · simpa using hclear
    · intro v hv hqv
      exact hkeep' v (by simpa [hv] using hkeep v hqv)

/-- From every state the main thread can return while what it no longer stops stays queued. -/
theorem can_return [Inhabited ι] (main : List (MainStmt O ς)) (s : Activity O ς σ)
    (hm : s.main = main) (hb : H.Bodied s) (hself : ∀ o, ¬ H.Feeds o o) :
    ∃ s', Leads H s s' ∧ s'.Returned ∧
      ∀ v, .stop v ∉ main → s.queued v = true → s'.queued v = true := by
  induction main generalizing s with
  | nil => exact ⟨s, .refl s, hm, fun _ _ hv => hv⟩
  | cons m rest ih =>
    have hnext (s' : Activity O ς σ) (hleads : Leads H s s') (hrest : s'.main = rest)
        (hkeep : ∀ v, .stop v ∉ m :: rest → s.queued v = true → s'.queued v = true) :
        ∃ s', Leads H s s' ∧ s'.Returned ∧
          ∀ v, .stop v ∉ m :: rest → s.queued v = true → s'.queued v = true := by
      obtain ⟨s'', hleads', hret, hkeep'⟩ := ih s' hrest (hleads.bodied hb)
      refine ⟨s'', hleads.trans hleads', hret, fun v hv hqv => ?_⟩
      exact hkeep' v (fun hmem => hv (List.mem_cons_of_mem _ hmem)) (hkeep v hv hqv)
    cases m with
    | stmt c =>
      have hstep := step_stmt (H := H) (ι := ι) hm
      refine hnext _ (.step .main (.refl _)) (by rw [hstep]; rfl) fun v _ hqv => ?_
      rw [hstep]
      exact (perform_queued c v).mpr (Or.inl hqv)
    | start o =>
      have hstep := step_start (H := H) (ι := ι) hm
      exact hnext _ (.step .main (.refl _)) (by rw [hstep]) fun v _ hqv => by rw [hstep]; exact hqv
    | stop o =>
      obtain ⟨s', hleads, hcan, hmain, hkeep⟩ := settle o s hb (hself o)
      have hstep := step_stop (H := H) (ι := ι) (hmain.trans hm) hcan
      refine hnext _ (hleads.trans (.step .main (.refl _))) (by rw [hstep]) fun v hv hqv => ?_
      have hvo : v ≠ o := by
        rintro rfl
        exact hv List.mem_cons_self
      rw [hstep]
      simpa [hvo] using hkeep v hvo hqv

/-- A statement that queues a handler too late can leave it queued for good. -/
theorem late_unload [Inhabited ι] (hu : s.Unloading) (hb : H.Bodied s)
    (hself : ∀ o, ¬ H.Feeds o o) {a : Act O ι} (ha : ¬ H.InTime s a) :
    ∃ more : List (Act O ι), (more.foldl H.step (H.step s a)).Returned ∧
      ∃ t, (more.foldl H.step (H.step s a)).queued t = true := by
  have hlate : ∃ t, (H.step s a).live t = false ∧ (H.step s a).queued t = true := by
    cases a with
    | enter o input => exact absurd trivial ha
    | advance o =>
      simp only [InTime, not_forall] at ha
      obtain ⟨c, cs, t, hr, hq, hlive⟩ := ha
      rw [step_exec hr]
      exact ⟨t, by simpa using hlive, (perform_queued c t).mpr (Or.inr hq)⟩
    | main =>
      simp only [InTime, not_forall] at ha
      obtain ⟨c, cs, t, hm, hq, hlive⟩ := ha
      rw [step_stmt hm]
      exact ⟨t, by simpa using hlive, (perform_queued c t).mpr (Or.inr hq)⟩
  obtain ⟨t, hdead, hqueued⟩ := hlate
  have hgone : .stop t ∉ (H.step s a).main := by
    intro hmem
    have hlive := ((step_unloading hu a).live t).mpr hmem
    exact absurd (hlive.symm.trans hdead) (by decide)
  obtain ⟨s', ⟨more, hmore⟩, hret, hkeep⟩ := can_return _ (H.step s a) rfl (step_bodied hb a) hself
  rw [← hmore] at hret hkeep
  exact ⟨more, hret, t, hkeep t hgone hqueued⟩

/-- What taking the module down amounts to: a run that queues no handler too late leaves
nothing behind, and a statement that does can leave something behind for good. -/
structure UnloadSpec (H : Handlers O ς σ ι) (start : Activity O ς σ) : Prop where
  quiet : ∀ acts, (H.machine start).Meets H.InTime acts →
    ((H.machine start).run acts).Returned →
    (∀ o, ((H.machine start).run acts).live o = false ∧ ((H.machine start).run acts).Quiet o) ∧
      ∀ more, (H.machine start).run (acts ++ more) = (H.machine start).run acts
  late : ∀ acts a, ¬ H.InTime ((H.machine start).run acts) a →
    ∃ more, ((H.machine start).run (acts ++ a :: more)).Returned ∧
      ∃ o, ¬ ((H.machine start).run (acts ++ a :: more)).Quiet o

theorem unloadSpec_of_loaded [Inhabited ι] {start : Activity O ς σ} (h : start.Idle)
    (hu : start.Unloading) (hb : H.Bodied start) (hself : ∀ o, ¬ H.Feeds o o) :
    UnloadSpec H start where
  quiet _ hm hr := inTime_unload h hu hm hr
  late acts a ha := by
    have hu' := (H.machine start).run_invariant hu (fun _ a hi => step_unloading hi a) acts
    have hb' := (H.machine start).run_invariant hb (fun _ a hi => step_bodied hi a) acts
    obtain ⟨more, hret, o, hq⟩ := late_unload hu' hb' hself ha
    have hrun : (H.machine start).run (acts ++ a :: more) =
        more.foldl H.step (H.step ((H.machine start).run acts) a) :=
      (H.machine start).run_append acts (a :: more)
    refine ⟨more, ?_⟩
    rw [hrun]
    exact ⟨hret, o, fun hquiet => absurd (hq.symm.trans hquiet.1) (by decide)⟩

end Late

end Handlers

end KernelDrivers.Framework
