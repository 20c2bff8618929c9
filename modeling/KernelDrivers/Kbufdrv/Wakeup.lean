import KernelDrivers.Framework.Machine
import KernelDrivers.Kbufdrv.Blocking

namespace KernelDrivers.Kbufdrv.Wakeup

open Framework Kernel

/-- The two wait queues of a device. -/
inductive Queue where
  | waitr
  | waitw
  deriving DecidableEq

/-- The queue on which a call waits, and the one it wakes when it succeeds. -/
def waitsOn : Call → Queue
  | .read _ => .waitr
  | .write _ => .waitw

def wakes : Call → Queue
  | .read _ => .waitw
  | .write _ => .waitr

def POLLIN : Nat := 0x1
def POLLOUT : Nat := 0x4
def POLLRDNORM : Nat := 0x40
def POLLWRNORM : Nat := 0x100

/-- What a poller has been told: its mask so far, and the wake-ups that have reached it
through each queue since the test of that queue's resource. -/
structure Poller where
  mask : Nat
  woken : Queue → Bool

def Poller.wake (p : Poller) (q : Queue) : Poller :=
  { p with woken := Function.update p.woken q true }

/-- Where a process is. A call tests its condition and sleeps in one step, and runs from
there to its return in another; a poller registers on the queues before it tests. -/
inductive Task where
  | idle
  | test (call : Call)
  | asleep (call : Call)
  | body (call : Call)
  | pollRegisterr
  | pollRegisterw
  | pollTestr
  | pollTestw (poller : Poller)
  | polled (poller : Poller)

/-- What a wake-up through `q` does to a process that is on the queue: a sleeper will test its
condition again, and a poller is told. -/
def Task.wake (q : Queue) : Task → Task
  | .asleep call => .test call
  | .pollTestw p => .pollTestw (p.wake q)
  | .polled p => .polled (p.wake q)
  | t => t

/-- A poller stays on the queues when it is woken, a sleeper leaves its queue. -/
def Task.polls : Task → Bool
  | .pollRegisterr | .pollRegisterw | .pollTestr | .pollTestw _ | .polled _ => true
  | .idle | .test _ | .asleep _ | .body _ => false

/-- A device with its wait queues, its processes and what their calls have returned. `fault` is
set when an access leaves the buffer. -/
structure State (P : Type*) where
  dev : Kbuf
  wait : Queue → List P
  task : P → Task
  returned : List (P × Resp)
  fault : Bool

inductive Act (P : Type*) where
  | invoke (p : P) (call : Call)
  | invokePoll (p : P)
  | run (p : P) (fate : CopyFate)
  | signal (p : P)
  | endPoll (p : P)

variable {P : Type*} [DecidableEq P]

def start : State P := ⟨.fresh, fun _ => [], fun _ => .idle, [], false⟩

namespace State

def goto (s : State P) (p : P) (t : Task) : State P :=
  { s with task := Function.update s.task p t }

def leave (s : State P) (p : P) (resp : Resp) : State P :=
  { s.goto p .idle with returned := s.returned ++ [(p, resp)] }

def enqueue (s : State P) (q : Queue) (p : P) : State P :=
  { s with wait := Function.update s.wait q (s.wait q ++ [p]) }

def dequeue (s : State P) (q : Queue) (p : P) : State P :=
  { s with wait := Function.update s.wait q ((s.wait q).filter fun p' => p' ≠ p) }

omit [DecidableEq P] in
@[simp] theorem enqueue_dev (s : State P) (q : Queue) (p : P) : (s.enqueue q p).dev = s.dev := rfl

omit [DecidableEq P] in
@[simp] theorem enqueue_task (s : State P) (q : Queue) (p : P) :
    (s.enqueue q p).task = s.task := rfl

@[simp] theorem dequeue_dev (s : State P) (q : Queue) (p : P) : (s.dequeue q p).dev = s.dev := rfl

@[simp] theorem dequeue_task (s : State P) (q : Queue) (p : P) :
    (s.dequeue q p).task = s.task := rfl

/-- `wake_up_interruptible(&pdev->q)`. -/
def wakeUp (s : State P) (q : Queue) : State P :=
  { s with
    task := fun p => if p ∈ s.wait q then (s.task p).wake q else s.task p
    wait := Function.update s.wait q ((s.wait q).filter fun p => (s.task p).polls) }

/-- The part of a call from leaving the wait to its return. -/
def serve (s : State P) (p : P) (call : Call) (fate : CopyFate) : State P :=
  match transfer s.dev call fate with
  | none => { s with fault := true }
  | some o =>
    let s := { s with dev := o.dev }
    let s := if o.moved then s.wakeUp (wakes call) else s
    s.leave p ⟨o.ret, o.out⟩

/-- `wait_event_interruptible`, the test and what follows from it. -/
def testAndSleep (s : State P) (p : P) (call : Call) : State P :=
  if call.ready s.dev then s.goto p (.body call)
  else (s.enqueue (waitsOn call) p).goto p (.asleep call)

/-- One step of `kbuf_poll`; the first two are its calls of `poll_wait`. -/
def kbufPoll (s : State P) (p : P) : State P :=
  match s.task p with
  | .pollRegisterr => (s.enqueue .waitr p).goto p .pollRegisterw
  | .pollRegisterw => (s.enqueue .waitw p).goto p .pollTestr
  | .pollTestr =>
    let mask := if s.dev.validlen != 0 then POLLIN ||| POLLRDNORM else 0
    s.goto p (.pollTestw ⟨mask, fun _ => false⟩)
  | .pollTestw poller =>
    let mask := poller.mask ||| if s.dev.validlen != SZ_512 then POLLOUT ||| POLLWRNORM else 0
    s.goto p (.polled ⟨mask, Function.update poller.woken .waitw false⟩)
  | _ => s

def step (s : State P) : Act P → State P
  | .invoke p call =>
    match s.task p with
    | .idle => if call.cnt = 0 then s.leave p ⟨0, []⟩ else s.goto p (.test call)
    | _ => s
  | .invokePoll p =>
    match s.task p with
    | .idle => s.goto p .pollRegisterr
    | _ => s
  | .run p fate =>
    match s.task p with
    | .test call => s.testAndSleep p call
    | .body call => s.serve p call fate
    | _ => s.kbufPoll p
  | .signal p =>
    -- the condition is tested before the signal is looked at
    match s.task p with
    | .test call =>
      if call.ready s.dev then s.goto p (.body call) else s.leave p ⟨-erestartsys, []⟩
    | .asleep call =>
      let s := s.dequeue (waitsOn call) p
      if call.ready s.dev then s.goto p (.body call) else s.leave p ⟨-erestartsys, []⟩
    | _ => s
  | .endPoll p =>
    match s.task p with
    -- `poll_freewait`
    | .polled _ => ((s.dequeue .waitr p).dequeue .waitw p).goto p .idle
    | _ => s

end State

def machine (P : Type*) [DecidableEq P] : Machine (State P) (Act P) := ⟨start, State.step⟩

/-- The steps of a call that nobody else interrupts; a signal ends its wait if it has to
sleep. -/
def solo (dev : Kbuf) (p : P) (call : Call) (fate : CopyFate) : List (Act P) :=
  [.invoke p call, if call.ready dev then .run p fate else .signal p, .run p fate]

/-- A call that nobody else interrupts is the sequential call of the driver. -/
theorem solo_call {s : State P} {p : P} (hp : s.task p = .idle) (hb : s.dev.Bounded) (call : Call)
    (fate : CopyFate) :
    ∃ o, Poll.fops s.dev call fate = some o ∧
      ((machine P).runFrom s (solo s.dev p call fate)).dev = o.dev ∧
      ((machine P).runFrom s (solo s.dev p call fate)).returned =
        s.returned ++ [(p, ⟨o.ret, o.out⟩)] := by
  rw [Poll.fops_eq]
  simp only [solo, Machine.runFrom, List.foldl_cons, List.foldl_nil, machine]
  by_cases h0 : call.cnt = 0
  · rw [if_pos h0]
    refine ⟨_, rfl, ?_⟩
    by_cases hr : call.ready s.dev = true <;>
      simp [State.step, hp, h0, hr, State.kbufPoll, State.leave, State.goto]
  have hinvoke : s.step (.invoke p call) = s.goto p (.test call) := by
    simp only [State.step, hp, if_neg h0]
  rw [if_neg h0, hinvoke]
  by_cases hr : call.ready s.dev = false
  · rw [if_pos hr]
    refine ⟨_, rfl, ?_⟩
    simp [State.step, hr, State.kbufPoll, State.leave, State.goto]
  · obtain ⟨o, ho, -⟩ := transfer_cases hb call fate
    have hready : call.ready s.dev = true := by simpa using hr
    rw [if_neg hr]
    refine ⟨o, ho, ?_⟩
    cases hmoved : o.moved <;>
      simp [State.step, hready, State.testAndSleep, State.serve, ho, hmoved, State.wakeUp,
        State.leave, State.goto]

/-- What the processes on a queue wait for is not there. -/
def Exhausted (dev : Kbuf) : Queue → Prop
  | .waitr => dev.validlen = 0
  | .waitw => dev.validlen = SZ_512

/-- The bit of the mask that a queue stands for. -/
def Queue.bit : Queue → Nat
  | .waitr => POLLIN
  | .waitw => POLLOUT

/-- Sleepers, and pollers that were told to wait and that no wake-up has reached, have
nothing to get up for. -/
def Settled (dev : Kbuf) : Task → Prop
  | .asleep call => Exhausted dev (waitsOn call)
  | .pollTestw p => p.mask &&& POLLIN = 0 → p.woken .waitr = false → Exhausted dev .waitr
  | .polled p => ∀ q : Queue, p.mask &&& q.bit = 0 → p.woken q = false → Exhausted dev q
  | _ => True

/-- A sleeper is on its queue, and so is a poller once it has got past a `poll_wait`. -/
def Queued (wait : Queue → List P) (p : P) : Task → Prop
  | .asleep call => p ∈ wait (waitsOn call)
  | .pollRegisterw => p ∈ wait .waitr
  | .pollTestr | .pollTestw _ | .polled _ => ∀ q, p ∈ wait q
  | .idle | .test _ | .body _ | .pollRegisterr => True

structure State.Inv (s : State P) : Prop where
  bounded : s.dev.Bounded
  safe : s.fault = false
  settled : ∀ p, Settled s.dev (s.task p)
  queued : ∀ p, Queued s.wait p (s.task p)

omit [DecidableEq P] in
theorem start_inv : (start : State P).Inv :=
  ⟨Kbuf.fresh_bounded, rfl, fun _ => trivial, fun _ => trivial⟩

theorem not_ready_iff (dev : Kbuf) (call : Call) :
    call.ready dev = false ↔ Exhausted dev (waitsOn call) := by
  cases call <;> simp [Call.ready, Exhausted, waitsOn]

/-- A call that succeeds can serve the processes of one queue only, the one it wakes. -/
theorem exhausted_of_moves {dev dev' : Kbuf} (hb : dev'.Bounded) {call : Call}
    (hmoves : Moves dev dev' call) {q : Queue} (hq : q ≠ wakes call) (h : Exhausted dev q) :
    Exhausted dev' q := by
  have hle : dev'.validlen ≤ SZ_512 := hb
  cases call with
  | read cnt =>
    cases q with
    | waitw => exact absurd rfl hq
    | waitr => exact Nat.le_zero.mp (Nat.le_trans hmoves (Nat.le_of_eq h))
  | write buf =>
    cases q with
    | waitr => exact absurd rfl hq
    | waitw => exact Nat.le_antisymm hle (Nat.le_trans (Nat.le_of_eq h.symm) hmoves)

theorem settled_of_exhausted {dev dev' : Kbuf} (h : ∀ q, Exhausted dev q → Exhausted dev' q)
    {t : Task} (ht : Settled dev t) : Settled dev' t := by
  cases t with
  | asleep call => exact h _ ht
  | pollTestw p => exact fun hm hw => h _ (ht hm hw)
  | polled p => exact fun q hm hw => h q (ht q hm hw)
  | idle | test call | body call | pollRegisterr | pollRegisterw | pollTestr => trivial

/-- A process that a wake-up has reached has no reason to wait through that queue. -/
theorem settled_wake {dev dev' : Kbuf} {w : Queue}
    (h : ∀ q, q ≠ w → Exhausted dev q → Exhausted dev' q) {t : Task} (ht : Settled dev t) :
    Settled dev' (t.wake w) := by
  have hwoken (p : Poller) (q : Queue) (hw : (p.wake w).woken q = false) :
      q ≠ w ∧ p.woken q = false := by
    by_cases hq : q = w
    · subst hq
      simp [Poller.wake] at hw
    · simpa [Poller.wake, hq] using hw
  cases t with
  | asleep call => trivial
  | pollTestw p =>
    intro hm hw
    obtain ⟨hq, hw⟩ := hwoken p .waitr hw
    exact h _ hq (ht hm hw)
  | polled p =>
    intro q hm hw
    obtain ⟨hq, hw⟩ := hwoken p q hw
    exact h q hq (ht q hm hw)
  | idle | test call | body call | pollRegisterr | pollRegisterw | pollTestr => trivial

omit [DecidableEq P] in
/-- A process that a wake-up does not reach is not on the queue, so it waits for something else. -/
theorem settled_missed {dev dev' : Kbuf} {w : Queue}
    (h : ∀ q, q ≠ w → Exhausted dev q → Exhausted dev' q) {wait : Queue → List P} {p : P} {t : Task}
    (ht : Settled dev t) (hqueued : Queued wait p t) (hmiss : p ∉ wait w) : Settled dev' t := by
  cases t with
  | asleep call =>
    apply h _ _ ht
    rintro rfl
    exact hmiss hqueued
  | pollTestw poller | polled poller => exact absurd (hqueued w) hmiss
  | idle | test call | body call | pollRegisterr | pollRegisterw | pollTestr => trivial

omit [DecidableEq P] in
theorem Queued.mono {wait wait' : Queue → List P} {p : P} {t : Task} (h : Queued wait p t)
    (hsub : ∀ q, p ∈ wait q → p ∈ wait' q) : Queued wait' p t := by
  cases t with
  | asleep call => exact hsub _ h
  | pollRegisterw => exact hsub _ h
  | pollTestr | pollTestw poller | polled poller => exact fun q => hsub q (h q)
  | idle | test call | body call | pollRegisterr => trivial

omit [DecidableEq P] in
theorem mem_enqueue {s : State P} {q q' : Queue} {p p' : P} (h : p' ∈ s.wait q') :
    p' ∈ (s.enqueue q p).wait q' := by
  by_cases hq : q' = q
  · subst hq
    simp [State.enqueue, h]
  · simpa [State.enqueue, hq] using h

omit [DecidableEq P] in
theorem mem_enqueue_self (s : State P) (q : Queue) (p : P) : p ∈ (s.enqueue q p).wait q := by
  simp [State.enqueue]

theorem mem_dequeue {s : State P} {q q' : Queue} {p p' : P} (hp : p' ≠ p) (h : p' ∈ s.wait q') :
    p' ∈ (s.dequeue q p).wait q' := by
  by_cases hq : q' = q
  · subst hq
    simp [State.dequeue, h, hp]
  · simpa [State.dequeue, hq] using h

theorem goto_inv {s : State P} (h : s.Inv) {wait : Queue → List P} (p : P) {t : Task}
    (hothers : ∀ p' q, p' ≠ p → p' ∈ s.wait q → p' ∈ wait q) (ht : Settled s.dev t)
    (hqueued : Queued wait p t) : State.Inv (State.goto { s with wait } p t) := by
  refine ⟨h.bounded, h.safe, fun q => ?_, fun q => ?_⟩
  · by_cases hq : q = p
    · subst hq
      simpa only [State.goto, Function.update_self] using ht
    · simpa only [State.goto, Function.update_of_ne hq] using h.settled q
  · by_cases hq : q = p
    · subst hq
      simpa only [State.goto, Function.update_self] using hqueued
    · simpa only [State.goto, Function.update_of_ne hq] using
        (h.queued q).mono fun q' => hothers q q' hq

/-- A process that does not wait takes a step. -/
theorem goto_free_inv {s : State P} (h : s.Inv) (p : P) {t : Task} (ht : Settled s.dev t)
    (hqueued : Queued s.wait p t) : (s.goto p t).Inv :=
  goto_inv h p (fun _ _ _ hmem => hmem) ht hqueued

theorem leave_inv {s : State P} (h : s.Inv) {wait : Queue → List P} (p : P)
    (hothers : ∀ p' q, p' ≠ p → p' ∈ s.wait q → p' ∈ wait q) (resp : Resp) :
    State.Inv (State.leave { s with wait } p resp) := by
  obtain ⟨hb, hf, hs, hq⟩ := goto_inv h p (t := .idle) hothers trivial trivial
  exact ⟨hb, hf, hs, hq⟩

/-- A call has moved the device on and wakes those that it can have served. -/
theorem wakeUp_inv {s : State P} (h : s.Inv) {dev : Kbuf} (hb : dev.Bounded) {w : Queue}
    (hkeeps : ∀ q, q ≠ w → Exhausted s.dev q → Exhausted dev q) :
    (State.wakeUp { s with dev } w).Inv := by
  refine ⟨hb, h.safe, fun p => ?_, fun p => ?_⟩
  · by_cases hp : p ∈ s.wait w
    · simp only [State.wakeUp, if_pos hp]
      exact settled_wake hkeeps (h.settled p)
    · simp only [State.wakeUp, if_neg hp]
      exact settled_missed hkeeps (h.settled p) (h.queued p) hp
  · -- only those that are woken and do not poll are taken off the queue
    have hqueued := h.queued p
    have hstays (q : Queue) (hq : p ∈ s.wait q) (hpoll : q = w → (s.task p).polls = true) :
        p ∈ (State.wakeUp { s with dev } w).wait q := by
      by_cases hqw : q = w
      · subst hqw
        simp [State.wakeUp, hq, hpoll rfl]
      · simpa [State.wakeUp, hqw] using hq
    have hpolls (hpoll : (s.task p).polls = true) :
        Queued (State.wakeUp { s with dev } w).wait p (s.task p) :=
      hqueued.mono fun q hq => hstays q hq fun _ => hpoll
    by_cases hp : p ∈ s.wait w
    · have htask : (State.wakeUp { s with dev } w).task p = (s.task p).wake w := if_pos hp
      rw [htask]
      cases ht : s.task p with
      | asleep call => trivial
      | pollRegisterr | pollRegisterw | pollTestr | pollTestw poller | polled poller =>
        have hq := hpolls (by rw [ht]; rfl)
        rw [ht] at hq
        exact hq
      | idle | test call | body call => trivial
    · have htask : (State.wakeUp { s with dev } w).task p = s.task p := if_neg hp
      rw [htask]
      refine hqueued.mono fun q hq => hstays q hq fun hqw => ?_
      exact absurd (hqw ▸ hq) hp

theorem serve_inv {s : State P} (h : s.Inv) (p : P) (call : Call) (fate : CopyFate) :
    (s.serve p call fate).Inv := by
  obtain ⟨o, ho, hb, hsame, hmoves⟩ := transfer_moves h.bounded call fate
  simp only [State.serve, ho]
  refine leave_inv ?_ p (fun _ _ _ hmem => hmem) _
  cases hmoved : o.moved with
  | false =>
    have hv := hsame hmoved
    refine ⟨hb, h.safe, fun q => settled_of_exhausted (fun q hq => ?_) (h.settled q), h.queued⟩
    cases q with
    | waitr => exact hv.trans hq
    | waitw => exact hv.trans hq
  | true => exact wakeUp_inv h hb fun q hne hq => exhausted_of_moves hb hmoves hne hq

theorem testAndSleep_inv {s : State P} (h : s.Inv) (p : P) (call : Call) :
    (s.testAndSleep p call).Inv := by
  unfold State.testAndSleep
  by_cases hr : call.ready s.dev = true
  · rw [if_pos hr]
    exact goto_free_inv h p trivial trivial
  · rw [if_neg hr]
    exact goto_inv h p (fun _ _ _ => mem_enqueue)
      ((not_ready_iff s.dev call).mp (Bool.eq_false_iff.mpr hr)) (mem_enqueue_self s _ p)

theorem kbufPoll_inv {s : State P} (h : s.Inv) (p : P) : (s.kbufPoll p).Inv := by
  have hp := h.settled p
  have hqueued := h.queued p
  cases ht : s.task p with
  | pollRegisterr =>
    simp only [State.kbufPoll, ht]
    exact goto_inv h p (fun _ _ _ => mem_enqueue) trivial (mem_enqueue_self s .waitr p)
  | pollRegisterw =>
    rw [ht] at hqueued
    simp only [State.kbufPoll, ht]
    refine goto_inv h p (fun _ _ _ => mem_enqueue) trivial fun q => ?_
    cases q with
    | waitr => exact mem_enqueue (s := s) (q := .waitw) (p := p) hqueued
    | waitw => exact mem_enqueue_self s .waitw p
  | pollTestr =>
    rw [ht] at hqueued
    simp only [State.kbufPoll, ht]
    refine goto_free_inv h p ?_ hqueued
    intro hmask _
    by_cases hv : s.dev.validlen = 0
    · exact hv
    · simp [hv, POLLIN, POLLRDNORM] at hmask
  | pollTestw poller =>
    rw [ht] at hp hqueued
    simp only [State.kbufPoll, ht]
    refine goto_free_inv h p ?_ hqueued
    intro q hmask hwoken
    rw [Nat.and_or_distrib_right, Nat.or_eq_zero_iff] at hmask
    cases q with
    | waitr => exact hp hmask.1 (by simpa using hwoken)
    | waitw =>
      by_cases hv : s.dev.validlen = SZ_512
      · exact hv
      · simp [hv, POLLOUT, POLLWRNORM, Queue.bit] at hmask
  | idle | test call | asleep call | body call | polled poller =>
    simp only [State.kbufPoll, ht]
    exact h

/-- A signal ends a wait, unless the condition holds. -/
theorem signal_inv {s : State P} (h : s.Inv) {wait : Queue → List P} (p : P)
    (hothers : ∀ p' q, p' ≠ p → p' ∈ s.wait q → p' ∈ wait q) (call : Call) :
    State.Inv (if call.ready s.dev = true then State.goto { s with wait } p (.body call)
      else State.leave { s with wait } p ⟨-erestartsys, []⟩) := by
  by_cases hr : call.ready s.dev = true
  · rw [if_pos hr]
    exact goto_inv h p hothers trivial trivial
  · rw [if_neg hr]
    exact leave_inv h p hothers _

theorem step_inv {s : State P} (h : s.Inv) (a : Act P) : (s.step a).Inv := by
  cases a with
  | invoke p call =>
    cases ht : s.task p with
    | idle =>
      simp only [State.step, ht]
      by_cases h0 : call.cnt = 0
      · rw [if_pos h0]
        exact leave_inv h p (fun _ _ _ hmem => hmem) _
      · rw [if_neg h0]
        exact goto_free_inv h p trivial trivial
    | _ => simpa only [State.step, ht] using h
  | invokePoll p =>
    cases ht : s.task p with
    | idle =>
      simp only [State.step, ht]
      exact goto_free_inv h p trivial trivial
    | _ => simpa only [State.step, ht] using h
  | run p fate =>
    cases ht : s.task p with
    | test call => simpa only [State.step, ht] using testAndSleep_inv h p call
    | body call => simpa only [State.step, ht] using serve_inv h p call fate
    | _ => simpa only [State.step, ht] using kbufPoll_inv h p
  | signal p =>
    cases ht : s.task p with
    | test call =>
      simp only [State.step, ht]
      exact signal_inv h p (fun _ _ _ hmem => hmem) call
    | asleep call =>
      simp only [State.step, ht]
      exact signal_inv h p (fun _ _ hne => mem_dequeue hne) call
    | _ => simpa only [State.step, ht] using h
  | endPoll p =>
    cases ht : s.task p with
    | polled poller =>
      simp only [State.step, ht]
      exact goto_inv h p (fun _ _ hne hmem => mem_dequeue hne (mem_dequeue hne hmem)) trivial
        trivial
    | _ => simpa only [State.step, ht] using h

/-- In every reachable state of the polling driver a sleeping reader finds the buffer
empty and a sleeping writer finds it full, so no two of them ever block each other, and a
poller that waits with a bit of its mask clear is on both queues and has a wake-up coming. -/
theorem no_lost_wakeup (acts : List (Act P)) :
    let s := (machine P).run acts
    s.fault = false ∧
      (∀ p cnt, s.task p = .asleep (.read cnt) → s.dev.validlen = 0) ∧
      (∀ p buf, s.task p = .asleep (.write buf) → s.dev.validlen = SZ_512) ∧
      (¬ ∃ p q cnt buf, s.task p = .asleep (.read cnt) ∧ s.task q = .asleep (.write buf)) ∧
      ∀ p poller, s.task p = .polled poller →
        p ∈ s.wait .waitr ∧ p ∈ s.wait .waitw ∧
        (poller.mask &&& POLLIN = 0 → poller.woken .waitr = false → s.dev.validlen = 0) ∧
        (poller.mask &&& POLLOUT = 0 → poller.woken .waitw = false → s.dev.validlen = SZ_512) := by
  intro s
  have hinv : s.Inv := (machine P).run_invariant start_inv (fun _ a h => step_inv h a) acts
  have hreader (p : P) (cnt : Nat) (h : s.task p = .asleep (.read cnt)) : s.dev.validlen = 0 := by
    have hp := hinv.settled p
    rwa [h] at hp
  have hwriter (p : P) (buf : List Byte) (h : s.task p = .asleep (.write buf)) :
      s.dev.validlen = SZ_512 := by
    have hp := hinv.settled p
    rwa [h] at hp
  refine ⟨hinv.safe, hreader, hwriter, ?_, ?_⟩
  · intro hboth
    obtain ⟨p, q, cnt, buf, hp, hq⟩ := hboth
    have hempty := hreader p cnt hp
    have hfull := hwriter q buf hq
    exact absurd (hempty.symm.trans hfull) (by decide)
  · intro p poller h
    have hp := hinv.settled p
    have hqueued := hinv.queued p
    rw [h] at hp hqueued
    exact ⟨hqueued .waitr, hqueued .waitw, hp .waitr, hp .waitw⟩

end KernelDrivers.Kbufdrv.Wakeup
