import KernelDrivers.Framework.Machine
import KernelDrivers.Kbufdrv.Steps

namespace KernelDrivers.Kbufdrv.Locked

open Framework Kernel

/-- A lock that one process at a time can hold. There is no result of `acquire` while it is
held: the caller sleeps. -/
structure Lock (σ : Type*) where
  free : σ
  held : σ
  acquire : σ → Option σ
  release : σ → σ
  acquire_free : acquire free = some held
  acquire_held : acquire held = none
  release_held : release held = free

/-- `mutex_init`, `mutex_lock` and `mutex_unlock`. -/
def mutex : Lock Bool where
  free := false
  held := true
  acquire locked := if locked then none else some true
  release _ := false
  acquire_free := rfl
  acquire_held := rfl
  release_held := rfl

/-- `sema_init(.., 1)`, `down` and `up`. -/
def semaphore : Lock Nat where
  free := 1
  held := 0
  acquire count := if count = 0 then none else some (count - 1)
  release count := count + 1
  acquire_free := rfl
  acquire_held := rfl
  release_held := rfl

/-- Where a process is in `kbuf_read` or `kbuf_write`; the success path ends in `unlock`
and every other one behind the lock in `error0`. -/
inductive Pc where
  | enter
  | lock
  | body (pc : BodyPc)
  | unlock
  | error0
  deriving DecidableEq

/-- A call in progress, with the number of times it has taken and released the lock. -/
structure Session where
  id : Nat
  pc : Pc
  fr : Frame
  ret : Int
  failed : Bool
  locks : Nat
  unlocks : Nat

/-- What a finished call has done to the lock. -/
structure Exit where
  cnt : Nat
  locks : Nat
  unlocks : Nat

structure State (σ P : Type*) where
  dev : Kbuf
  lock : σ
  session : P → Option Session
  history : List (HistoryEvent Call Op Resp)
  nextId : Nat
  exits : List Exit
  fault : Bool

inductive Act (P : Type*) where
  | invoke (p : P) (call : Call)
  | run (p : P) (fate : CopyFate)

def Session.enter (id : Nat) (call : Call) : Session := ⟨id, .enter, .enter call, 0, false, 0, 0⟩

/-- A call whose copy fails is a failing one, whatever becomes of it. -/
def Session.meets (c : Session) (pc : BodyPc) (fate : CopyFate) : Session :=
  { c with failed := c.failed || copyFails pc c.fr fate }

/-- The session after a step of its body; there is none when an access left the buffer. -/
def Session.after (dev : Kbuf) (c : Session) : Move → Option (Kbuf × Session)
  | .stay => some (dev, c)
  | .next pc dev fr => some (dev, { c with pc := .body pc, fr })
  | .error dev ret => some (dev, { c with pc := .error0, ret })
  | .done dev fr => some (dev, { c with pc := .unlock, fr, ret := fr.cnt })
  | .fault => none

variable {σ P : Type*} [DecidableEq P]

namespace State

def goto (s : State σ P) (p : P) (c : Session) : State σ P :=
  { s with session := Function.update s.session p (some c) }

/-- The call returns. -/
def leave (s : State σ P) (p : P) (c : Session) : State σ P :=
  { s with
    session := Function.update s.session p none
    history := s.history ++ [.respond c.id ⟨c.fr.call, c.failed⟩ ⟨c.ret, c.fr.out⟩]
    exits := s.exits ++ [⟨c.fr.call.cnt, c.locks, c.unlocks⟩] }

end State

def start (lk : Lock σ) : State σ P := ⟨.fresh, lk.free, fun _ => none, [], 0, [], false⟩

/-- The next step of the call `c` of process `p`. -/
def advance (lk : Lock σ) (s : State σ P) (p : P) (c : Session) (fate : CopyFate) : State σ P :=
  match c.pc with
  | .enter => if c.fr.call.cnt = 0 then s.leave p c else s.goto p { c with pc := .lock }
  | .lock =>
    match lk.acquire s.lock with
    | none => s
    | some lock => State.goto { s with lock } p { c with pc := .body .test, locks := c.locks + 1 }
  | .body pc =>
    match (c.meets pc fate).after s.dev (bodyStep .refuse ⟨fate, false⟩ pc s.dev c.fr) with
    | none => { s with fault := true }
    | some (dev, c) => State.goto { s with dev } p c
  | .unlock =>
    State.leave { s with lock := lk.release s.lock } p { c with unlocks := c.unlocks + 1 }
  | .error0 =>
    State.leave { s with lock := lk.release s.lock } p { c with unlocks := c.unlocks + 1 }

def step (lk : Lock σ) (s : State σ P) : Act P → State σ P
  | .invoke p call =>
    match s.session p with
    | some _ => s
    | none =>
      State.goto
        { s with history := s.history ++ [.invoke s.nextId call], nextId := s.nextId + 1 }
        p (.enter s.nextId call)
  | .run p fate =>
    match s.session p with
    | none => s
    | some c => advance lk s p c fate

def machine (lk : Lock σ) (P : Type*) [DecidableEq P] : Machine (State σ P) (Act P) :=
  ⟨start lk, step lk⟩

/-- The call is between its `lock` and its `unlock`. -/
def Session.critical (c : Session) : Bool :=
  match c.pc with
  | .enter | .lock => false
  | .body _ | .unlock | .error0 => true

/-- What a FIFO holds after the completed calls of a history. -/
def fifoOf (h : List (HistoryEvent Call Op Resp)) : List Byte :=
  fifo.replay [] ((completions h).map Completed.exchange)

/-- How far the holder of the lock has brought the device, `q` being what the FIFO holds. -/
def Progress (q : List Byte) (dev : Kbuf) (c : Session) : Prop :=
  match c.pc with
  | .enter | .lock => False
  | .body pc => AtStage q dev c.fr pc ∧ c.failed = false
  | .unlock | .error0 => fifoStep q ⟨c.fr.call, c.failed⟩ = (dev.contents, ⟨c.ret, c.fr.out⟩)

/-- A call keeps count of the lock, and one that has taken it asks for something. -/
structure Session.Ok (s : State σ P) (c : Session) : Prop where
  asked : .invoke c.id c.fr.call ∈ s.history
  locks : c.locks = if c.critical then 1 else 0
  unlocks : c.unlocks = 0
  calm : c.critical = false → c.fr = .enter c.fr.call ∧ c.failed = false ∧ c.ret = 0
  asks : c.pc ≠ .enter → c.fr.call.cnt ≠ 0

def Exit.Balanced (e : Exit) : Prop :=
  e.locks = e.unlocks ∧ e.unlocks = if e.cnt = 0 then 0 else 1

/-- Either the lock is free and the device holds what the FIFO holds, or one process holds
it and is somewhere on the way to its answer. -/
def Owned (lk : Lock σ) (s : State σ P) : Prop :=
  (s.lock = lk.free ∧ s.dev.contents = fifoOf s.history ∧
    ∀ p c, s.session p = some c → c.critical = false) ∨
  (s.lock = lk.held ∧ ∃ p c, s.session p = some c ∧ c.critical = true ∧
    Progress (fifoOf s.history) s.dev c ∧
    ∀ p' c', s.session p' = some c' → c'.critical = true → p' = p)

structure Inv (lk : Lock σ) (s : State σ P) : Prop where
  safe : s.fault = false
  bounded : s.dev.Bounded
  wellFormed : WellFormed Op.call s.history
  fresh : ∀ id ∈ invocations s.history, id < s.nextId
  legal : fifo.Legal ((completions s.history).map Completed.exchange)
  ok : ∀ p c, s.session p = some c → c.Ok s
  exits : ∀ e ∈ s.exits, e.Balanced
  owned : Owned lk s

variable {lk : Lock σ}

omit [DecidableEq P] in
theorem start_inv : Inv lk (start lk : State σ P) where
  safe := rfl
  bounded := Kbuf.fresh_bounded
  wellFormed := .nil
  fresh _ h := absurd h List.not_mem_nil
  legal := trivial
  ok _ c h := absurd h.symm (Option.some_ne_none c)
  exits _ h := absurd h List.not_mem_nil
  owned := Or.inl ⟨rfl, rfl, fun _ c h => absurd h.symm (Option.some_ne_none c)⟩

omit [DecidableEq P] in
theorem Session.Ok.mono {s s' : State σ P} {c : Session} (h : c.Ok s)
    (hsub : ∀ e ∈ s.history, e ∈ s'.history) : c.Ok s' :=
  ⟨hsub _ h.asked, h.locks, h.unlocks, h.calm, h.asks⟩

/-- A step of a process outside its critical section leaves the ownership as it is. -/
theorem Owned.of_calm {s s' : State σ P} (h : Owned lk s) {p : P} {v : Option Session}
    (hcalm : ∀ c, s.session p = some c → c.critical = false)
    (hv : ∀ c, v = some c → c.critical = false)
    (hsession : s'.session = Function.update s.session p v) (hlock : s'.lock = s.lock)
    (hdev : s'.dev = s.dev) (hfifo : fifoOf s'.history = fifoOf s.history) : Owned lk s' := by
  cases h with
  | inl hfree =>
    obtain ⟨hl, hc, hnone⟩ := hfree
    refine Or.inl ⟨hlock.trans hl, ?_, ?_⟩
    · rw [hdev, hfifo]
      exact hc
    · intro q c hq
      rw [hsession] at hq
      cases update_eq_some hq with
      | inl hself => exact hv c hself.2
      | inr hother => exact hnone q c hother.2
  | inr hheld =>
    obtain ⟨hl, o, c, ho, hcrit, hprog, hone⟩ := hheld
    have hne : o ≠ p := by
      intro heq
      subst heq
      rw [hcalm c ho] at hcrit
      exact absurd hcrit (by decide)
    refine Or.inr ⟨hlock.trans hl, o, c, ?_, hcrit, ?_, ?_⟩
    · rw [hsession, Function.update_of_ne hne]
      exact ho
    · rw [hdev, hfifo]
      exact hprog
    · intro q c' hq hcrit'
      rw [hsession] at hq
      cases update_eq_some hq with
      | inl hself =>
        rw [hv c' hself.2] at hcrit'
        exact absurd hcrit' (by decide)
      | inr hother => exact hone q c' hother.2 hcrit'

theorem fifoOf_invoke (h : List (HistoryEvent Call Op Resp)) (id : Nat) (call : Call) :
    fifoOf (h ++ [.invoke id call]) = fifoOf h := by
  rw [fifoOf, completions_invoke, fifoOf]

theorem fifoOf_respond (h : List (HistoryEvent Call Op Resp)) (id : Nat) (op : Op) (resp : Resp) :
    fifoOf (h ++ [.respond id op resp]) = (fifoStep (fifoOf h) op).1 := by
  simp [fifoOf, Completed.exchange, fifo]

theorem invoke_inv {s : State σ P} (h : Inv lk s) (p : P) (call : Call) :
    Inv lk (step lk s (.invoke p call)) := by
  cases hs : s.session p with
  | some c =>
    simp only [step, hs]
    exact h
  | none =>
    simp only [step, hs]
    have hid : s.nextId ∉ invocations s.history :=
      fun hmem => absurd (h.fresh _ hmem) (Nat.lt_irrefl _)
    refine ⟨h.safe, h.bounded, h.wellFormed.invoke hid call, ?_, ?_, ?_, h.exits, ?_⟩
    · intro id hmem
      simp only [State.goto, invocations_invoke, List.mem_append, List.mem_singleton] at hmem
      cases hmem with
      | inl hold => exact Nat.lt_succ_of_lt (h.fresh id hold)
      | inr hnew => exact hnew ▸ Nat.lt_succ_self _
    · simpa only [State.goto, completions_invoke] using h.legal
    · intro q c hq
      cases update_eq_some hq with
      | inl hself =>
        obtain rfl := Option.some.inj hself.2
        exact ⟨by simp [State.goto, Session.enter, Frame.enter], rfl, rfl,
          fun _ => ⟨rfl, rfl, rfl⟩, fun hne => absurd rfl hne⟩
      | inr hother =>
        exact (h.ok q c hother.2).mono fun e he => List.mem_append_left _ he
    · refine h.owned.of_calm (p := p) (v := some (.enter s.nextId call)) ?_ ?_ rfl rfl rfl ?_
      · intro c hc
        rw [hs] at hc
        cases hc
      · intro c hc
        obtain rfl := Option.some.inj hc
        rfl
      · exact fifoOf_invoke _ _ _

theorem goto_inv {s : State σ P} (h : Inv lk s) {p : P} {c : Session} (dev : Kbuf) (lock : σ)
    (hb : dev.Bounded) (hok : c.Ok s) (howned : Owned lk (State.goto { s with dev, lock } p c)) :
    Inv lk (State.goto { s with dev, lock } p c) := by
  refine ⟨h.safe, hb, h.wellFormed, h.fresh, h.legal, ?_, h.exits, howned⟩
  intro q c' hq
  cases update_eq_some hq with
  | inl hself =>
    obtain rfl := Option.some.inj hself.2
    exact hok.mono fun _ he => he
  | inr hother => exact (h.ok q c' hother.2).mono fun _ he => he

/-- A call returns what the FIFO answers. -/
theorem leave_inv {s : State σ P} (h : Inv lk s) {p : P} {c : Session} (lock : σ)
    (hasked : .invoke c.id c.fr.call ∈ s.history)
    (hanswer : (fifoStep (fifoOf s.history) ⟨c.fr.call, c.failed⟩).2 = ⟨c.ret, c.fr.out⟩)
    (hbalanced : Exit.Balanced ⟨c.fr.call.cnt, c.locks, c.unlocks⟩)
    (howned : Owned lk (State.leave { s with lock } p c)) :
    Inv lk (State.leave { s with lock } p c) := by
  refine ⟨h.safe, h.bounded, h.wellFormed.respond hasked _, ?_, ?_, ?_, ?_, howned⟩
  · simpa only [State.leave, invocations_respond] using h.fresh
  · simp only [State.leave, completions_respond, List.map_append, List.map_cons, List.map_nil]
    exact (fifo.legal_concat _ _).mpr ⟨h.legal, hanswer⟩
  · intro q c' hq
    cases update_eq_some hq with
    | inl hself => exact absurd hself.2.symm (Option.some_ne_none c')
    | inr hother =>
      exact (h.ok q c' hother.2).mono fun e he => List.mem_append_left _ he
  · intro e he
    cases List.mem_append.mp he with
    | inl hold => exact h.exits e hold
    | inr hnew => exact List.mem_singleton.mp hnew ▸ hbalanced

omit [DecidableEq P] in
/-- The process in its critical section is the one that holds the lock. -/
theorem Owned.progress {s : State σ P} (h : Owned lk s) {p : P} {c : Session}
    (hs : s.session p = some c) (hc : c.critical = true) :
    s.lock = lk.held ∧ Progress (fifoOf s.history) s.dev c ∧
      ∀ q c', s.session q = some c' → c'.critical = true → q = p := by
  cases h with
  | inl hfree =>
    have hcalm := hfree.2.2 p c hs
    rw [hc] at hcalm
    exact absurd hcalm (by decide)
  | inr hheld =>
    obtain ⟨hl, o, c', ho, -, hprog, hone⟩ := hheld
    obtain rfl := hone p c hs hc
    obtain rfl := Option.some.inj (ho.symm.trans hs)
    exact ⟨hl, hprog, hone⟩

/-- The holder of the lock moves on. -/
theorem owned_goto {s : State σ P} {p : P} {c : Session} {dev : Kbuf}
    (hone : ∀ q c', s.session q = some c' → c'.critical = true → q = p)
    (hc : c.critical = true) (hprog : Progress (fifoOf s.history) dev c) :
    Owned lk (State.goto { s with dev, lock := lk.held } p c) := by
  refine Or.inr ⟨rfl, p, c, Function.update_self .., hc, hprog, ?_⟩
  intro q c' hq hcrit
  cases update_eq_some hq with
  | inl hself => exact hself.1
  | inr hother => exact hone q c' hother.2 hcrit

theorem enter_inv {s : State σ P} (h : Inv lk s) {p : P} {c : Session}
    (hs : s.session p = some c) (hpc : c.pc = .enter) (fate : CopyFate) :
    Inv lk (advance lk s p c fate) := by
  have hok := h.ok p c hs
  have hcalm : c.critical = false := by simp [Session.critical, hpc]
  obtain ⟨hfr, hfailed, hret⟩ := hok.calm hcalm
  have hcalms (c' : Session) (hc' : s.session p = some c') : c'.critical = false := by
    obtain rfl := Option.some.inj (hs.symm.trans hc')
    exact hcalm
  simp only [advance, hpc]
  by_cases h0 : c.fr.call.cnt = 0
  · rw [if_pos h0]
    have hanswer : fifoStep (fifoOf s.history) ⟨c.fr.call, c.failed⟩ =
        (fifoOf s.history, ⟨c.ret, c.fr.out⟩) := by
      rw [hfr, hret]
      simp [fifoStep, h0, Frame.enter]
    apply leave_inv h s.lock hok.asked (congrArg Prod.snd hanswer)
    · have hlocks := hok.locks
      have hunlocks := hok.unlocks
      simp only [hcalm] at hlocks
      simp [Exit.Balanced, hlocks, hunlocks, h0]
    · have hnone (c' : Session) (hv : none = some c') : c'.critical = false :=
        absurd hv.symm (Option.some_ne_none c')
      refine h.owned.of_calm (p := p) hcalms hnone rfl rfl rfl ?_
      rw [State.leave, fifoOf_respond, hanswer]
  · rw [if_neg h0]
    have hlock : Session.critical { c with pc := .lock } = false := rfl
    have hlocks := hok.locks
    rw [hcalm] at hlocks
    apply goto_inv h s.dev s.lock h.bounded
    · exact ⟨hok.asked, hlocks, hok.unlocks, fun _ => ⟨hfr, hfailed, hret⟩, fun _ => h0⟩
    · refine h.owned.of_calm (p := p) hcalms (fun c' hv => ?_) rfl rfl rfl rfl
      obtain rfl := Option.some.inj hv
      exact hlock

theorem lock_inv {s : State σ P} (h : Inv lk s) {p : P} {c : Session}
    (hs : s.session p = some c) (hpc : c.pc = .lock) (fate : CopyFate) :
    Inv lk (advance lk s p c fate) := by
  have hok := h.ok p c hs
  have hcalm : c.critical = false := by simp [Session.critical, hpc]
  obtain ⟨hfr, hfailed, -⟩ := hok.calm hcalm
  have h0 : c.fr.call.cnt ≠ 0 := hok.asks (by rw [hpc]; decide)
  simp only [advance, hpc]
  cases h.owned with
  | inr hheld =>
    rw [hheld.1, lk.acquire_held]
    exact h
  | inl hfree =>
    obtain ⟨hl, hcontents, hnone⟩ := hfree
    have hlocks := hok.locks
    rw [hcalm] at hlocks
    rw [hl, lk.acquire_free]
    apply goto_inv h s.dev lk.held h.bounded
    · refine ⟨hok.asked, ?_, hok.unlocks, fun hno => absurd hno (by simp [Session.critical]),
        fun _ => h0⟩
      rw [hlocks]
      rfl
    · refine owned_goto ?_ rfl ⟨⟨hcontents, hfr⟩, hfailed⟩
      intro q c' hq hcrit
      rw [hnone q c' hq] at hcrit
      exact absurd hcrit (by decide)

theorem body_inv {s : State σ P} (h : Inv lk s) {p : P} {c : Session} {pc : BodyPc}
    (hs : s.session p = some c) (hpc : c.pc = .body pc) (fate : CopyFate) :
    Inv lk (advance lk s p c fate) := by
  have hok := h.ok p c hs
  have hcrit : c.critical = true := by simp [Session.critical, hpc]
  have h0 : c.fr.call.cnt ≠ 0 := hok.asks (by rw [hpc]; simp)
  have hlocks : c.locks = 1 := by simpa [hcrit] using hok.locks
  obtain ⟨hl, hprog, hone⟩ := h.owned.progress hs hcrit
  simp only [Progress, hpc] at hprog
  obtain ⟨hstage, hfailed⟩ := hprog
  have hend := body_stageEnd h.bounded h0 hstage ⟨fate, false⟩
  simp only [advance, hpc, Session.meets, hfailed, Bool.false_or]
  have hgoto {c' : Session} {dev : Kbuf} (hb : dev.Bounded) (hok' : c'.Ok s)
      (hc' : c'.critical = true) (hprog' : Progress (fifoOf s.history) dev c') :
      Inv lk (State.goto { s with dev } p c') := by
    have howned : Owned lk (State.goto { s with dev, lock := lk.held } p c') :=
      owned_goto hone hc' hprog'
    rw [← hl] at howned
    exact goto_inv h dev s.lock hb hok' howned
  generalize bodyStep .refuse ⟨fate, false⟩ pc s.dev c.fr = m at hend ⊢
  cases hend with
  | next hcopied hcall hb' hstage' =>
    refine hgoto hb' ?_ rfl ⟨hstage', hcopied⟩
    exact ⟨hcall ▸ hok.asked, hlocks, hok.unlocks,
      fun hno => absurd hno (by simp [Session.critical]), fun _ => hcall ▸ h0⟩
  | error hb' hout hanswer =>
    refine hgoto hb' ?_ rfl ?_
    · exact ⟨hok.asked, hlocks, hok.unlocks, fun hno => absurd hno (by simp [Session.critical]),
        fun _ => h0⟩
    · simp only [Progress]
      rw [hanswer, hout]
  | done hcopied hb' hanswer =>
    refine hgoto hb' ?_ rfl ?_
    · exact ⟨hok.asked, hlocks, hok.unlocks, fun hno => absurd hno (by simp [Session.critical]),
        fun _ => h0⟩
    · simp only [Progress]
      rw [hcopied]
      exact hanswer

/-- Both exits release the lock and hand it back with the device in order. -/
theorem exit_inv {s : State σ P} (h : Inv lk s) {p : P} {c : Session}
    (hs : s.session p = some c) (hpc : c.pc = .unlock ∨ c.pc = .error0) (fate : CopyFate) :
    Inv lk (advance lk s p c fate) := by
  have hok := h.ok p c hs
  have hcrit : c.critical = true := by cases hpc with | _ hpc => simp [Session.critical, hpc]
  have h0 : c.fr.call.cnt ≠ 0 := hok.asks (by cases hpc with | _ hpc => simp [hpc])
  have hlocks : c.locks = 1 := by simpa [hcrit] using hok.locks
  obtain ⟨hl, hprog, hone⟩ := h.owned.progress hs hcrit
  have hanswer : fifoStep (fifoOf s.history) ⟨c.fr.call, c.failed⟩ =
      (s.dev.contents, ⟨c.ret, c.fr.out⟩) := by
    cases hpc with | _ hpc => simpa only [Progress, hpc] using hprog
  have hleave : advance lk s p c fate = State.leave { s with lock := lk.release s.lock } p
      { c with unlocks := c.unlocks + 1 } := by
    cases hpc with | _ hpc => simp only [advance, hpc]
  rw [hleave]
  refine leave_inv h _ hok.asked (congrArg Prod.snd hanswer) ?_ ?_
  · simp [Exit.Balanced, hlocks, hok.unlocks, h0]
  · refine Or.inl ⟨?_, ?_, ?_⟩
    · simp only [State.leave, hl, lk.release_held]
    · rw [State.leave, fifoOf_respond, hanswer]
    · intro q c' hq
      cases update_eq_some hq with
      | inl hself => exact absurd hself.2.symm (Option.some_ne_none c')
      | inr hother =>
        by_contra hcrit'
        exact hother.1 (hone q c' hother.2 (by simpa using hcrit'))

theorem step_inv {s : State σ P} (h : Inv lk s) (a : Act P) : Inv lk (step lk s a) := by
  cases a with
  | invoke p call => exact invoke_inv h p call
  | run p fate =>
    cases hs : s.session p with
    | none =>
      simp only [step, hs]
      exact h
    | some c =>
      simp only [step, hs]
      cases hpc : c.pc with
      | enter => exact enter_inv h hs hpc fate
      | lock => exact lock_inv h hs hpc fate
      | body pc => exact body_inv h hs hpc fate
      | unlock => exact exit_inv h hs (Or.inl hpc) fate
      | error0 => exact exit_inv h hs (Or.inr hpc) fate

omit [DecidableEq P] in
theorem Owned.of_free {s : State σ P} (h : Owned lk s) (hl : s.lock = lk.free) :
    s.dev.contents = fifoOf s.history := by
  cases h with
  | inl hfree => exact hfree.2.1
  | inr hheld =>
    have hsome := lk.acquire_free
    rw [← hl, hheld.1, lk.acquire_held] at hsome
    exact absurd hsome (by simp)

/-- What a locked device guarantees: its calls linearize to the bounded FIFO, every byte that
was accepted is delivered once or still stored, no access leaves the buffer, and each call
that gets to the lock takes and releases it once. -/
structure Serves (lk : Lock σ) (s : State σ P) : Prop where
  linearizable : Linearizable fifo s.history
  wellFormed : WellFormed Op.call s.history
  safe : s.fault = false
  bounded : s.dev.validlen ≤ SZ_512
  account : ∃ f : BoundedFifo Byte SZ_512,
    f.accepted = ((completions s.history).map Completed.exchange).flatMap acceptedBy ∧
    f.delivered = ((completions s.history).map Completed.exchange).flatMap deliveredBy ∧
    (s.lock = lk.free → f.queue = s.dev.contents)
  exits : ∀ e ∈ s.exits, e.locks = e.unlocks ∧ e.unlocks = if e.cnt = 0 then 0 else 1
  idle : (∀ p, s.session p = none) → s.lock = lk.free

omit [DecidableEq P] in
theorem Inv.serves {s : State σ P} (h : Inv lk s) : Serves lk s where
  linearizable := h.wellFormed.linearizable h.legal
  wellFormed := h.wellFormed
  safe := h.safe
  bounded := h.bounded
  account := by
    obtain ⟨f, hq, ha, hd⟩ := legal_account h.legal
    exact ⟨f, ha, hd, fun hl => hq.trans (h.owned.of_free hl).symm⟩
  exits := h.exits
  idle hnone := by
    cases h.owned with
    | inl hfree => exact hfree.1
    | inr hheld =>
      obtain ⟨-, p, c, hs, -⟩ := hheld
      exact absurd (hs.symm.trans (hnone p)) (Option.some_ne_none c)

theorem run_inv (lk : Lock σ) (acts : List (Act P)) : Inv lk ((machine lk P).run acts) :=
  (machine lk P).run_invariant start_inv (fun _ a h => step_inv h a) acts

/-- Any interleaving of any calls keeps the guarantees of `locks/mutex` and of
`locks/semaphore`. -/
theorem locked_drivers_linearizable (acts : List (Act P)) :
    Serves mutex ((machine mutex P).run acts) ∧
      Serves semaphore ((machine semaphore P).run acts) :=
  ⟨(run_inv mutex acts).serves, (run_inv semaphore acts).serves⟩

end KernelDrivers.Kbufdrv.Locked
