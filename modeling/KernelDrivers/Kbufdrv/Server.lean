import Mathlib.Algebra.BigOperators.Group.Finset.Basic
import Mathlib.Algebra.Order.BigOperators.Group.Finset
import KernelDrivers.Framework.CString
import KernelDrivers.Kbufdrv.Variants

namespace KernelDrivers.Kbufdrv.Server

open Framework Kernel

section Device

variable {Q : Type*} [DecidableEq Q]

/-- The call that a step carries out, and its answer. -/
def exchange (d : Wakeup.State Q) : Wakeup.Act Q → Option (Op × Resp)
  | .run p fate =>
    match d.task p with
    | .body call =>
      (transfer d.dev call fate).map fun o => (call.op d.dev fate, ⟨o.ret, o.out⟩)
    | _ => none
  | _ => none

def taken (d : Wakeup.State Q) (a : Wakeup.Act Q) : List Byte :=
  (exchange d a).elim [] acceptedBy

def given (d : Wakeup.State Q) (a : Wakeup.Act Q) : List Byte :=
  (exchange d a).elim [] deliveredBy

/-- The process that takes a step. -/
def actor : Wakeup.Act Q → Q
  | .invoke p _ | .invokePoll p | .run p _ | .signal p | .endPoll p => p

/-- A step that leaves the device and all other processes as they are, and answers to nobody but the
process that takes it. -/
structure Quiet (d d' : Wakeup.State Q) (p : Q) : Prop where
  dev : d'.dev = d.dev
  task : ∀ q, q ≠ p → d'.task q = d.task q
  returned : d'.returned = d.returned ∨ ∃ resp, d'.returned = d.returned ++ [(p, resp)]

omit [DecidableEq Q] in
theorem Quiet.refl (d : Wakeup.State Q) (p : Q) : Quiet d d p := ⟨rfl, fun _ _ => rfl, Or.inl rfl⟩

theorem goto_quiet (d : Wakeup.State Q) (wait : Wakeup.Queue → List Q) (p : Q) (t : Wakeup.Task) :
    Quiet d (Wakeup.State.goto { d with wait } p t) p :=
  ⟨rfl, fun _ hq => Function.update_of_ne hq _ _, Or.inl rfl⟩

theorem leave_quiet (d : Wakeup.State Q) (wait : Wakeup.Queue → List Q) (p : Q) (resp : Resp) :
    Quiet d (Wakeup.State.leave { d with wait } p resp) p :=
  ⟨rfl, fun _ hq => Function.update_of_ne hq _ _, Or.inr ⟨resp, rfl⟩⟩

theorem kbufPoll_quiet (d : Wakeup.State Q) (p : Q) : Quiet d (d.kbufPoll p) p := by
  unfold Wakeup.State.kbufPoll
  split
  · exact goto_quiet d _ p _
  · exact goto_quiet d _ p _
  · exact goto_quiet d d.wait p _
  · exact goto_quiet d d.wait p _
  · exact .refl d p

theorem testAndSleep_quiet (d : Wakeup.State Q) (p : Q) (call : Call) :
    Quiet d (d.testAndSleep p call) p := by
  unfold Wakeup.State.testAndSleep
  split
  · exact goto_quiet d d.wait p _
  · exact goto_quiet d _ p _

/-- The part of a call after its wait: the others are woken if it has moved bytes. -/
theorem serve_spec {d : Wakeup.State Q} {call : Call} {fate : CopyFate} {o : Outcome}
    (ho : transfer d.dev call fate = some o) (p : Q) :
    (d.serve p call fate).dev = o.dev ∧
      (∀ q, q ≠ p → (d.serve p call fate).task q = d.task q ∨
        (d.serve p call fate).task q = (d.task q).wake (Wakeup.wakes call)) ∧
      (d.serve p call fate).task p = .idle ∧
      (d.serve p call fate).returned = d.returned ++ [(p, ⟨o.ret, o.out⟩)] := by
  simp only [Wakeup.State.serve, ho]
  cases o.moved with
  | false =>
    exact ⟨rfl, fun q hq => Or.inl (Function.update_of_ne hq _ _), Function.update_self _ _ _, rfl⟩
  | true =>
    refine ⟨rfl, fun q hq => ?_, Function.update_self _ _ _, rfl⟩
    simp only [if_true, Wakeup.State.leave, Wakeup.State.goto, Wakeup.State.wakeUp,
      Function.update_of_ne hq]
    split
    · exact Or.inr rfl
    · exact Or.inl rfl

/-- A step is the transfer of a call, or a quiet one. -/
theorem step_cases {d : Wakeup.State Q} (h : d.Inv) (a : Wakeup.Act Q) :
    (∃ p fate call o, a = .run p fate ∧ d.task p = .body call ∧
        transfer d.dev call fate = some o ∧ (d.step a).dev = o.dev ∧
        (∀ q, q ≠ p → (d.step a).task q = d.task q ∨
          (d.step a).task q = (d.task q).wake (Wakeup.wakes call)) ∧
        (d.step a).task p = .idle ∧ (d.step a).returned = d.returned ++ [(p, ⟨o.ret, o.out⟩)]) ∨
      (exchange d a = none ∧ Quiet d (d.step a) (actor a)) := by
  cases a with
  | invoke p call =>
    refine Or.inr ⟨rfl, ?_⟩
    cases ht : d.task p <;> simp only [Wakeup.State.step, ht]
    case idle =>
      split
      · exact leave_quiet d d.wait p _
      · exact goto_quiet d d.wait p _
    all_goals exact .refl d p
  | invokePoll p =>
    refine Or.inr ⟨rfl, ?_⟩
    cases ht : d.task p <;> simp only [Wakeup.State.step, ht]
    case idle => exact goto_quiet d d.wait p _
    all_goals exact .refl d p
  | signal p =>
    refine Or.inr ⟨rfl, ?_⟩
    cases ht : d.task p <;> simp only [Wakeup.State.step, ht]
    case test call =>
      split
      · exact goto_quiet d d.wait p _
      · exact leave_quiet d d.wait p _
    case asleep call =>
      split
      · exact goto_quiet d _ p _
      · exact leave_quiet d _ p _
    all_goals exact .refl d p
  | endPoll p =>
    refine Or.inr ⟨rfl, ?_⟩
    cases ht : d.task p <;> simp only [Wakeup.State.step, ht]
    case polled poller => exact goto_quiet d _ p _
    all_goals exact .refl d p
  | run p fate =>
    cases ht : d.task p with
    | body call =>
      obtain ⟨o, ho, -⟩ := transfer_cases h.bounded call fate
      refine Or.inl ⟨p, fate, call, o, rfl, ht, ho, ?_⟩
      have hstep : d.step (.run p fate) = d.serve p call fate := by
        simp only [Wakeup.State.step, ht]
      rw [hstep]
      exact serve_spec ho p
    | test call =>
      refine Or.inr ⟨by simp only [exchange, ht], ?_⟩
      simpa only [Wakeup.State.step, ht, actor] using testAndSleep_quiet d p call
    | _ =>
      refine Or.inr ⟨by simp only [exchange, ht], ?_⟩
      simpa only [Wakeup.State.step, ht, actor] using kbufPoll_quiet d p

/-- What the device held and what a step gives it is what the step takes and what is left. -/
theorem step_account {d : Wakeup.State Q} (h : d.Inv) (a : Wakeup.Act Q) :
    given d a ++ (d.step a).dev.contents = d.dev.contents ++ taken d a := by
  rcases step_cases h a with ⟨p, fate, call, o, rfl, ht, ho, hdev, -⟩ | ⟨hnone, hquiet⟩
  · obtain ⟨o', ho', -, hend⟩ := transfer_cases h.bounded call fate
    obtain rfl : o' = o := Option.some.inj (ho'.symm.trans ho)
    have hexchange : exchange d (.run p fate) = some (call.op d.dev fate, ⟨o'.ret, o'.out⟩) := by
      simp only [exchange, ht, ho, Option.map_some]
    rw [given, taken, hexchange, hdev]
    simp only [Option.elim_some]
    rcases hend with ⟨-, hret, hout, -, -, hc⟩ | ⟨-, -, heff⟩
    · have hneg : o'.ret ≤ 0 := by rw [hret]; decide
      rw [acceptedBy_of_nonpos hneg, deliveredBy_of_out hout, hc, List.nil_append,
        List.append_nil]
    · cases call with
      | read cnt =>
        obtain ⟨hc, hresp⟩ := Prod.mk.injEq .. ▸ heff
        have hout : o'.out = d.dev.contents.take cnt := congrArg Resp.out hresp
        simp [deliveredBy, acceptedBy, Call.op, hc, hout]
      | write buf =>
        obtain ⟨hc, hresp⟩ := Prod.mk.injEq .. ▸ heff
        have hret : o'.ret = (min buf.length (SZ_512 - d.dev.contents.length) : Nat) :=
          congrArg Resp.ret hresp
        have htake : buf.take (min buf.length (SZ_512 - d.dev.contents.length)) =
            BoundedFifo.admitted SZ_512 d.dev.contents buf := by
          rw [BoundedFifo.admitted, List.take_eq_take_iff]
          omega
        simp only [deliveredBy, acceptedBy, Call.op, hc, hret, Int.toNat_natCast, htake,
          List.nil_append]
  · rw [given, taken, hnone, hquiet.dev]
    simp

/-- The answers that a process has got. -/
def answersTo (d : Wakeup.State Q) (p : Q) : List Resp :=
  (d.returned.filter fun e => e.1 = p).map Prod.snd

/-- Nobody gets an answer but the process that takes the step. -/
theorem step_answersTo {d : Wakeup.State Q} (h : d.Inv) {a : Wakeup.Act Q} {p : Q}
    (hp : actor a ≠ p) : answersTo (d.step a) p = answersTo d p := by
  rcases step_cases h a with ⟨p', fate, call, o, rfl, -, -, -, -, -, hret⟩ | ⟨-, hquiet⟩
  · have hp' : p' ≠ p := hp
    simp [answersTo, hret, hp']
  · rcases hquiet.returned with hret | ⟨resp, hret⟩
    · rw [answersTo, hret, answersTo]
    · simp [answersTo, hret, hp]

end Device

def CNT : Nat := 512
def NUM : Nat := 16

def EPOLLIN : Nat := 0x1
def EPOLLERR : Nat := 0x8
def EPOLLHUP : Nat := 0x10

/-- `struct epoll_event`; the descriptor is the one opened for a device. -/
structure Event where
  fd : Fin NUM
  events : Nat

/-- What `epoll_wait` reports of a file that was added with `EPOLLIN`; errors and hang-ups are
always reported. -/
def reported (dev : Kbuf) : Nat := Poll.kbufPoll dev &&& (EPOLLIN ||| EPOLLERR ||| EPOLLHUP)

/-- Where `main` is: in `epoll_wait` with what has been found ready so far, in the `for` loop with
what is left of `eparr`, or in a `read`. -/
inductive Main where
  | epollWait (eparr : List Event)
  | loop (eparr : List Event)
  | read (fd : Fin NUM) (eparr : List Event)
  | exited

/-- A read that has returned: its value, the bytes copied and the text printed. -/
structure Printed where
  fd : Fin NUM
  ret : Int
  out : List Byte
  text : List Byte

/-- The devices, each with the server (`none`) and the other processes, and the server's memory.
`fault` is set when an access leaves `buf`. -/
structure State (P : Type*) where
  devs : Fin NUM → Wakeup.State (Option P)
  main : Main
  buf : FixedBuffer Byte CNT
  printed : List Printed
  accepted : Fin NUM → List Byte
  fault : Bool

/-- What another process does with a device: it writes, polls or is hit by a signal. -/
inductive User (P : Type*) where
  | write (p : P) (buf : List Byte)
  | poll (p : P)
  | run (p : P) (fate : CopyFate)
  | signal (p : P)
  | endPoll (p : P)

def User.act {P : Type*} : User P → Wakeup.Act (Option P)
  | .write p buf => .invoke (some p) (.write buf)
  | .poll p => .invokePoll (some p)
  | .run p fate => .run (some p) fate
  | .signal p => .signal (some p)
  | .endPoll p => .endPoll (some p)

/-- A step of another process, the kernel's look at one file for `epoll_wait`, a step of the
server, or a signal for it. -/
inductive Act (P : Type*) where
  | user (fd : Fin NUM) (u : User P)
  | scan (fd : Fin NUM)
  | main
  | signal

/-- The server's own steps. -/
def Act.own {P : Type*} : Act P → Prop
  | .scan _ | .main => True
  | .user _ _ | .signal => False

variable {P : Type*} [DecidableEq P]

def start (buf : FixedBuffer Byte CNT) : State P :=
  ⟨fun _ => Wakeup.start, .epollWait [], buf, [], fun _ => [], false⟩

namespace State

def drive (s : State P) (fd : Fin NUM) (a : Wakeup.Act (Option P)) : State P :=
  { s with
    devs := Function.update s.devs fd ((s.devs fd).step a)
    accepted := Function.update s.accepted fd (s.accepted fd ++ taken (s.devs fd) a) }

/-- What follows `read`: `buf[ret] = '\0'` and the `%s` that prints `buf`. -/
def print (s : State P) (fd : Fin NUM) (resp : Resp) (eparr : List Event) : State P :=
  if resp.ret < 0 then { s with main := .exited }
  else
    let terminated := (s.buf.write? 0 resp.out).bind fun buf => buf.write? resp.ret.toNat [0]
    match terminated with
    | none => { s with fault := true }
    | some buf =>
      match cString buf.cells with
      | none => { s with fault := true }
      | some text =>
        { s with
          buf
          main := .loop eparr
          printed := s.printed ++ [⟨fd, resp.ret, resp.out, text⟩] }

/-- The server goes on when its call has returned. -/
def collect (s : State P) (fd : Fin NUM) (eparr : List Event) : State P :=
  match (s.devs fd).task none, (s.devs fd).returned.getLast? with
  | .idle, some (_, resp) => s.print fd resp eparr
  | _, _ => s

def runMain (s : State P) : State P :=
  match s.main with
  | .epollWait [] => s
  | .epollWait eparr => { s with main := .loop eparr }
  | .loop [] => { s with main := .epollWait [] }
  | .loop (e :: eparr) =>
    if e.events &&& EPOLLIN ≠ 0 then
      { s.drive e.fd (.invoke none (.read (CNT - 1))) with main := .read e.fd eparr }
    else { s with main := .loop eparr }
  | .read fd eparr => (s.drive fd (.run none .success)).collect fd eparr
  | .exited => s

def step (s : State P) : Act P → State P
  | .user fd u => s.drive fd u.act
  | .scan fd =>
    match s.main with
    | .epollWait eparr =>
      let events := reported (s.devs fd).dev
      if events = 0 ∨ fd ∈ eparr.map Event.fd then s
      else { s with main := .epollWait (eparr ++ [⟨fd, events⟩]) }
    | _ => s
  | .main => s.runMain
  | .signal =>
    match s.main with
    -- `epoll_wait` fails with EINTR when it has nothing to report
    | .epollWait [] => { s with main := .exited }
    | .read fd eparr => (s.drive fd (.signal none)).collect fd eparr
    | _ => s

/-- The bytes of a device that the server has got. -/
def got (s : State P) (fd : Fin NUM) : List Byte :=
  (s.printed.filter fun e => e.fd = fd).flatMap Printed.out

/-- The text the server has printed for a device. -/
def output (s : State P) (fd : Fin NUM) : List Byte :=
  (s.printed.filter fun e => e.fd = fd).flatMap Printed.text

end State

def machine (buf : FixedBuffer Byte CNT) (P : Type*) [DecidableEq P] : Machine (State P) (Act P) :=
  ⟨start buf, State.step⟩

/-- A process that is not the server waits for room or is writing, if it is in a call. -/
def WritesOnly : Wakeup.Task → Prop
  | .test call | .asleep call | .body call => call.isRead = false
  | _ => True

def Awake (t : Wakeup.Task) : Prop := ∀ call, t ≠ .asleep call

/-- What the server has been told stays true until it reads. -/
structure Ready (devs : Fin NUM → Wakeup.State (Option P)) (eparr : List Event) : Prop where
  once : (eparr.map Event.fd).Nodup
  data : ∀ e ∈ eparr, e.events &&& EPOLLIN ≠ 0 ∧ (devs e.fd).dev.validlen ≠ 0

/-- The server's call in progress is a read that will not wait. -/
def At (devs : Fin NUM → Wakeup.State (Option P)) : Main → Prop
  | .epollWait eparr | .loop eparr => (∀ fd, (devs fd).task none = .idle) ∧ Ready devs eparr
  | .read fd eparr =>
    ((devs fd).task none = .test (.read (CNT - 1)) ∨
        (devs fd).task none = .body (.read (CNT - 1))) ∧
      (devs fd).dev.validlen ≠ 0 ∧ (∀ other, other ≠ fd → (devs other).task none = .idle) ∧
      fd ∉ eparr.map Event.fd ∧ Ready devs eparr
  | .exited => ∀ fd, (devs fd).task none = .idle

/-- The value of a read is the number of bytes it copied, and they are printed up to a NUL. -/
structure Faithful (e : Printed) : Prop where
  ret : e.ret = e.out.length
  pos : 0 < e.out.length
  fits : e.out.length ≤ CNT - 1
  text : e.text = shown e.out

/-- What the server's reads of a device have returned. -/
def answers (s : State P) (fd : Fin NUM) : List Resp := answersTo (s.devs fd) none

/-- The reads of a device of which the server has printed the text. -/
def State.told (s : State P) (fd : Fin NUM) : List Resp :=
  (s.printed.filter fun e => e.fd = fd).map fun e => ⟨e.ret, e.out⟩

structure Inv (s : State P) : Prop where
  devices : ∀ fd, (s.devs fd).Inv
  writers : ∀ fd p, WritesOnly ((s.devs fd).task (some p))
  server : At s.devs s.main
  told : ∀ fd, answers s fd = s.told fd
  account : ∀ fd, s.got fd ++ (s.devs fd).dev.contents = s.accepted fd
  printed : ∀ e ∈ s.printed, Faithful e
  safe : s.fault = false

theorem WritesOnly.wake {t : Wakeup.Task} (h : WritesOnly t) (q : Wakeup.Queue) :
    WritesOnly (t.wake q) := by
  cases t with
  | _ => exact h

theorem kbufPoll_writesOnly {Q : Type*} [DecidableEq Q] {d : Wakeup.State Q} {p : Q}
    (h : WritesOnly (d.task p)) : WritesOnly ((d.kbufPoll p).task p) := by
  unfold Wakeup.State.kbufPoll
  split
  · simp [Wakeup.State.goto, WritesOnly]
  · simp [Wakeup.State.goto, WritesOnly]
  · simp [Wakeup.State.goto, WritesOnly]
  · simp [Wakeup.State.goto, WritesOnly]
  · exact h

theorem act_writesOnly {d : Wakeup.State (Option P)} (h : d.Inv) {u : User P}
    (hw : WritesOnly (d.task (actor u.act))) :
    WritesOnly ((d.step u.act).task (actor u.act)) := by
  cases u with
  | write p buf =>
    simp only [User.act, actor] at hw ⊢
    cases ht : d.task (some p) <;> rw [ht] at hw <;> simp only [Wakeup.State.step, ht]
    case idle =>
      split <;> simp [Wakeup.State.leave, Wakeup.State.goto, WritesOnly, Call.isRead]
    all_goals exact hw
  | poll p =>
    simp only [User.act, actor] at hw ⊢
    cases ht : d.task (some p) <;> rw [ht] at hw <;> simp only [Wakeup.State.step, ht]
    case idle => simp [Wakeup.State.goto, WritesOnly]
    all_goals exact hw
  | signal p =>
    simp only [User.act, actor] at hw ⊢
    cases ht : d.task (some p) <;> rw [ht] at hw <;> simp only [Wakeup.State.step, ht]
    case test call | asleep call =>
      split
      · simpa [Wakeup.State.goto, WritesOnly] using hw
      · simp [Wakeup.State.leave, Wakeup.State.goto, WritesOnly]
    all_goals exact hw
  | endPoll p =>
    simp only [User.act, actor] at hw ⊢
    cases ht : d.task (some p) <;> rw [ht] at hw <;> simp only [Wakeup.State.step, ht]
    case polled poller => simp [Wakeup.State.goto, WritesOnly]
    all_goals exact hw
  | run p fate =>
    simp only [User.act, actor] at hw ⊢
    cases ht : d.task (some p) with
    | test call =>
      rw [ht] at hw
      simp only [Wakeup.State.step, ht, Wakeup.State.testAndSleep]
      split <;> simpa [Wakeup.State.goto, WritesOnly] using hw
    | body call =>
      rcases step_cases h (.run (some p) fate) with ⟨p', fate', call', o, heq, -, -, -, -, hidle, -⟩
        | ⟨hnone, -⟩
      · cases heq
        rw [hidle]
        trivial
      · obtain ⟨o, ho, -⟩ := transfer_cases h.bounded call fate
        simp [exchange, ht, ho] at hnone
    | _ =>
      simp only [Wakeup.State.step, ht]
      exact kbufPoll_writesOnly hw

theorem user_step {d : Wakeup.State (Option P)} (h : d.Inv)
    (hw : ∀ p, WritesOnly (d.task (some p))) (u : User P) :
    (∀ p, WritesOnly ((d.step u.act).task (some p))) ∧
      ((d.step u.act).task none = d.task none ∨
        ∃ q, (d.step u.act).task none = (d.task none).wake q) ∧
      d.dev.validlen ≤ (d.step u.act).dev.validlen ∧ given d u.act = [] ∧
      answersTo (d.step u.act) none = answersTo d none := by
  obtain ⟨p, hp⟩ : ∃ p, actor u.act = some p := by
    cases u <;> exact ⟨_, rfl⟩
  have hanswers : answersTo (d.step u.act) none = answersTo d none :=
    step_answersTo h (by simp [hp])
  have hself : WritesOnly ((d.step u.act).task (some p)) := by
    have hp' := hw p
    rw [← hp] at hp' ⊢
    exact act_writesOnly h hp'
  rcases step_cases h u.act with ⟨p', fate, call, o, hu, ht, ho, hdev, hothers, -⟩ |
      ⟨hnone, hquiet⟩
  · obtain rfl : p' = some p := by rw [← hp, hu, actor]
    have hwrite : call.isRead = false := by
      have hp' := hw p
      rwa [ht] at hp'
    obtain ⟨o', ho', -, -, hmoves⟩ := transfer_moves h.bounded call fate
    obtain rfl : o' = o := Option.some.inj (ho'.symm.trans ho)
    refine ⟨?_, ?_, ?_, ?_, hanswers⟩
    · intro q
      by_cases hq : q = p
      · exact hq ▸ hself
      · rcases hothers (some q) (by simpa using hq) with heq | heq
        · exact heq ▸ hw q
        · exact heq ▸ (hw q).wake _
    · exact (hothers none nofun).imp_right fun heq => ⟨_, heq⟩
    · rw [hdev]
      cases call with
      | read cnt => simp [Call.isRead] at hwrite
      | write buf => exact hmoves
    · simp only [given, hu, exchange, ht, ho, Option.map_some, Option.elim_some]
      cases call with
      | read cnt => simp [Call.isRead] at hwrite
      | write buf => rfl
  · have hothers := hquiet.task
    rw [hp] at hothers
    refine ⟨?_, Or.inl (hothers none nofun), Nat.le_of_eq (congrArg _ hquiet.dev.symm), ?_,
      hanswers⟩
    · intro q
      by_cases hq : q = p
      · exact hq ▸ hself
      · exact hothers (some q) (by simpa using hq) ▸ hw q
    · rw [given, hnone]
      rfl

omit [DecidableEq P] in
theorem Ready.mono {devs devs' : Fin NUM → Wakeup.State (Option P)} {eparr : List Event}
    (h : Ready devs eparr)
    (hdata : ∀ e ∈ eparr, (devs e.fd).dev.validlen ≠ 0 → (devs' e.fd).dev.validlen ≠ 0) :
    Ready devs' eparr :=
  ⟨h.once, fun e he => ⟨(h.data e he).1, hdata e he (h.data e he).2⟩⟩

omit [DecidableEq P] in
theorem At.mono {devs devs' : Fin NUM → Wakeup.State (Option P)} {m : Main} (h : At devs m)
    (htask : ∀ fd, (devs' fd).task none = (devs fd).task none ∨
      ∃ q, (devs' fd).task none = ((devs fd).task none).wake q)
    (hdata : ∀ fd, (devs fd).dev.validlen ≤ (devs' fd).dev.validlen) : At devs' m := by
  have hready {eparr : List Event} (hr : Ready devs eparr) : Ready devs' eparr :=
    hr.mono fun e _ h0 => Nat.ne_of_gt (Nat.lt_of_lt_of_le (Nat.pos_of_ne_zero h0) (hdata e.fd))
  have hkeep {fd : Fin NUM} {t : Wakeup.Task} (ht : (devs fd).task none = t)
      (hw : ∀ q, t.wake q = t) : (devs' fd).task none = t := by
    rcases htask fd with heq | ⟨q, heq⟩
    · exact heq.trans ht
    · rw [heq, ht, hw]
  cases m with
  | epollWait eparr => exact ⟨fun fd => hkeep (h.1 fd) fun _ => rfl, hready h.2⟩
  | loop eparr => exact ⟨fun fd => hkeep (h.1 fd) fun _ => rfl, hready h.2⟩
  | read fd eparr =>
    obtain ⟨ht, h0, hidle, hfresh, hr⟩ := h
    refine ⟨?_, ?_, fun other hne => hkeep (hidle other hne) fun _ => rfl, hfresh, hready hr⟩
    · exact ht.imp (fun ht => hkeep ht fun _ => rfl) (fun ht => hkeep ht fun _ => rfl)
    · have hle := hdata fd
      omega
  | exited => exact fun fd => hkeep (h fd) fun _ => rfl

section Drive

variable {s : State P} {fd : Fin NUM} {a : Wakeup.Act (Option P)}

@[simp] theorem drive_self : (s.drive fd a).devs fd = (s.devs fd).step a :=
  Function.update_self _ _ _

theorem drive_other {fd' : Fin NUM} (hne : fd' ≠ fd) : (s.drive fd a).devs fd' = s.devs fd' :=
  Function.update_of_ne hne _ _

/-- A step with one device changes nothing about the others that the server has been told of. -/
theorem Ready.drive {eparr : List Event} (h : Ready s.devs eparr)
    (hfresh : fd ∉ eparr.map Event.fd) : Ready (s.drive fd a).devs eparr := by
  refine h.mono fun e he h0 => ?_
  have hne : e.fd ≠ fd := fun heq => hfresh (heq ▸ List.mem_map_of_mem he)
  rwa [drive_other hne]

theorem drive_devices (h : Inv s) (fd' : Fin NUM) : ((s.drive fd a).devs fd').Inv := by
  by_cases hfd : fd' = fd
  · subst hfd
    rw [drive_self]
    exact Wakeup.step_inv (h.devices fd') a
  · rw [drive_other hfd]
    exact h.devices fd'

theorem drive_writers (h : Inv s) (hw : ∀ p, WritesOnly (((s.devs fd).step a).task (some p)))
    (fd' : Fin NUM) (p : P) : WritesOnly (((s.drive fd a).devs fd').task (some p)) := by
  by_cases hfd : fd' = fd
  · subst hfd
    rw [drive_self]
    exact hw p
  · rw [drive_other hfd]
    exact h.writers fd' p

/-- The account of a device, with what the step has just given. -/
theorem drive_account (h : Inv s) (fd : Fin NUM) (a : Wakeup.Act (Option P)) (fd' : Fin NUM) :
    s.got fd' ++ ((if fd' = fd then given (s.devs fd) a else []) ++
      ((s.drive fd a).devs fd').dev.contents) = (s.drive fd a).accepted fd' := by
  by_cases hfd : fd' = fd
  · subst hfd
    rw [drive_self, if_pos rfl, step_account (h.devices fd') a, ← List.append_assoc, h.account]
    simp only [State.drive, Function.update_self]
  · rw [drive_other hfd, if_neg hfd, List.nil_append, h.account]
    simp only [State.drive, Function.update_of_ne hfd]

/-- The server has got no further answer. -/
theorem drive_told (h : Inv s)
    (hanswers : answersTo ((s.devs fd).step a) none = answersTo (s.devs fd) none) (fd' : Fin NUM) :
    answers (s.drive fd a) fd' = s.told fd' := by
  rw [← h.told, answers, answers]
  by_cases hfd : fd' = fd
  · subst hfd
    rw [drive_self, hanswers]
  · rw [drive_other hfd]

theorem drive_user_inv (h : Inv s) (u : User P) : Inv (s.drive fd u.act) := by
  obtain ⟨hwriters, htask, hdata, hgiven, hanswers⟩ :=
    user_step (h.devices fd) (h.writers fd) u
  refine ⟨drive_devices h, drive_writers h hwriters, h.server.mono ?_ ?_, drive_told h hanswers, ?_,
    h.printed, h.safe⟩
  · intro fd'
    by_cases hfd : fd' = fd
    · subst hfd
      rwa [drive_self]
    · exact Or.inl (by rw [drive_other hfd])
  · intro fd'
    by_cases hfd : fd' = fd
    · subst hfd
      rwa [drive_self]
    · rw [drive_other hfd]
  · intro fd'
    rw [← drive_account h, hgiven]
    simp only [ite_self, List.nil_append]
    rfl

end Drive

theorem reported_spec {dev : Kbuf} :
    (reported dev ≠ 0 ↔ dev.validlen ≠ 0) ∧
      (reported dev &&& EPOLLIN ≠ 0 ↔ dev.validlen ≠ 0) := by
  have hbit : (dev.validlen != 0) = true ↔ dev.validlen ≠ 0 := bne_iff_ne
  rw [← hbit, reported, Poll.kbufPoll]
  cases dev.validlen != 0 <;> cases dev.validlen != SZ_512 <;> decide

omit [DecidableEq P] in
/-- What is printed of a read that fits. -/
theorem print_eq (s : State P) (fd : Fin NUM) (out : List Byte) (hfits : out.length ≤ CNT - 1)
    (eparr : List Event) :
    ∃ buf, s.print fd ⟨out.length, out⟩ eparr = { s with
      buf
      main := .loop eparr
      printed := s.printed ++ [⟨fd, out.length, out, shown out⟩] } := by
  have hroom : 0 + (out ++ [0]).length ≤ CNT := by
    rw [List.length_append, List.length_singleton, Nat.zero_add]
    exact Nat.add_le_of_le_sub (by decide) hfits
  have hout : 0 + out.length ≤ CNT := by
    rw [List.length_append] at hroom
    omega
  have hterminated : ((s.buf.write? 0 out).bind fun buf => buf.write? out.length [0]) =
      some (s.buf.splice 0 (out ++ [0]) hroom) := by
    have hfirst := s.buf.write?_eq_some hout
    have hboth := s.buf.write?_write? hfirst [0]
    rw [Nat.zero_add] at hboth
    rw [hfirst, Option.bind_some, hboth, s.buf.write?_eq_some hroom]
  have hcells : (s.buf.splice 0 (out ++ [0]) hroom).cells =
      out ++ [0] ++ s.buf.cells.drop (out.length + 1) := by
    simp [FixedBuffer.splice]
  have htext : cString (s.buf.splice 0 (out ++ [0]) hroom).cells = some (shown out) := by
    rw [cString, hcells, if_pos (by simp), CStr.shown_terminated]
  refine ⟨s.buf.splice 0 (out ++ [0]) hroom, ?_⟩
  rw [State.print, if_neg (Int.not_lt.mpr (Int.natCast_nonneg _))]
  simp only [Int.toNat_natCast, hterminated, htext]

omit [DecidableEq P] in
theorem collect_busy {s : State P} {fd : Fin NUM} (eparr : List Event)
    (h : (s.devs fd).task none ≠ .idle) : s.collect fd eparr = s := by
  unfold State.collect
  split
  · rename_i hidle _
    exact absurd hidle h
  · rfl

/-- A step that only takes the server on in its own call. -/
theorem drive_goto_inv {s : State P} (h : Inv s) {fd : Fin NUM} {a : Wakeup.Act (Option P)}
    {t : Wakeup.Task} (hstep : (s.devs fd).step a = (s.devs fd).goto none t)
    (hquiet : exchange (s.devs fd) a = none) {m : Main} (hat : At (s.drive fd a).devs m) :
    Inv { s.drive fd a with main := m } := by
  have hanswers : answersTo ((s.devs fd).step a) none = answersTo (s.devs fd) none := by
    rw [hstep]
    rfl
  refine ⟨drive_devices h, drive_writers h ?_, hat, drive_told h hanswers, ?_, h.printed, h.safe⟩
  · intro p
    have hne : (some p : Option P) ≠ none := nofun
    simp only [hstep, Wakeup.State.goto, Function.update_of_ne hne]
    exact h.writers fd p
  · intro fd'
    show _ = (s.drive fd a).accepted fd'
    rw [← drive_account h, given, hquiet]
    simp only [Option.elim_none, ite_self, List.nil_append]
    rfl

theorem drive_goto_dev {s : State P} {fd : Fin NUM} {a : Wakeup.Act (Option P)} {t : Wakeup.Task}
    (hstep : (s.devs fd).step a = (s.devs fd).goto none t) (fd' : Fin NUM) :
    ((s.drive fd a).devs fd').dev = (s.devs fd').dev := by
  by_cases hfd : fd' = fd
  · subst hfd
    rw [drive_self, hstep]
    rfl
  · rw [drive_other hfd]

/-- The server begins to read a device that it has been told about. -/
theorem loop_inv {s : State P} (h : Inv s) {e : Event} {eparr : List Event}
    (hm : s.main = .loop (e :: eparr)) :
    Inv s.runMain ∧ s.runMain.main = .read e.fd eparr ∧
      (s.runMain.devs e.fd).task none = .test (.read (CNT - 1)) ∧
      ∀ fd, (s.runMain.devs fd).dev = (s.devs fd).dev := by
  have hserver := h.server
  rw [hm] at hserver
  obtain ⟨hidle, hready⟩ := hserver
  obtain ⟨hevents, hdata⟩ := hready.data e List.mem_cons_self
  obtain ⟨hfresh, honce⟩ := List.nodup_cons.mp hready.once
  have hstep : (s.devs e.fd).step (.invoke none (.read (CNT - 1))) =
      (s.devs e.fd).goto none (.test (.read (CNT - 1))) := by
    simp only [Wakeup.State.step, hidle]
    exact if_neg (by decide)
  have htask : ((s.drive e.fd (.invoke none (.read (CNT - 1)))).devs e.fd).task none =
      .test (.read (CNT - 1)) := by
    simp only [drive_self, hstep, Wakeup.State.goto, Function.update_self]
  simp only [State.runMain, hm, if_pos hevents]
  refine ⟨drive_goto_inv h hstep rfl ?_, trivial, htask, drive_goto_dev hstep⟩
  have hrest : Ready s.devs eparr :=
    ⟨honce, fun e' he' => hready.data e' (List.mem_cons_of_mem _ he')⟩
  refine ⟨Or.inl htask, ?_, ?_, hfresh, hrest.drive hfresh⟩
  · rw [drive_self, hstep]
    exact hdata
  · intro other hne
    rw [drive_other hne]
    exact hidle other

/-- There is something to read, so the server does not wait in `read`, signal or not. -/
theorem read_test_inv {s : State P} (h : Inv s) {fd : Fin NUM} {eparr : List Event}
    (hm : s.main = .read fd eparr) (ht : (s.devs fd).task none = .test (.read (CNT - 1)))
    {a : Wakeup.Act (Option P)} (ha : a = .run none .success ∨ a = .signal none) :
    (s.drive fd a).collect fd eparr = s.drive fd a ∧
      ((s.drive fd a).devs fd).task none = .body (.read (CNT - 1)) ∧ Inv (s.drive fd a) ∧
      ∀ fd', ((s.drive fd a).devs fd').dev = (s.devs fd').dev := by
  have hserver := h.server
  rw [hm] at hserver
  obtain ⟨-, hdata, hidle, hfresh, hready⟩ := hserver
  have hwill : (Call.read (CNT - 1)).ready (s.devs fd).dev = true := bne_iff_ne.mpr hdata
  have hstep : (s.devs fd).step a = (s.devs fd).goto none (.body (.read (CNT - 1))) := by
    rcases ha with rfl | rfl <;>
      simp only [Wakeup.State.step, Wakeup.State.testAndSleep, ht, if_pos hwill]
  have hquiet : exchange (s.devs fd) a = none := by
    rcases ha with rfl | rfl <;> simp only [exchange, ht]
  have htask : ((s.drive fd a).devs fd).task none = .body (.read (CNT - 1)) := by
    simp only [drive_self, hstep, Wakeup.State.goto, Function.update_self]
  have hbusy : ((s.drive fd a).devs fd).task none ≠ .idle := by
    rw [htask]
    simp
  refine ⟨collect_busy eparr hbusy, htask, ?_, drive_goto_dev hstep⟩
  apply drive_goto_inv (m := s.main) h hstep hquiet
  rw [hm]
  refine ⟨Or.inr htask, ?_, ?_, hfresh, hready.drive hfresh⟩
  · rw [drive_self, hstep]
    exact hdata
  · intro other hne
    rw [drive_other hne]
    exact hidle other hne

/-- The server's read is carried out: it copies what there is, up to the size of `buf` less one. -/
theorem read_body_inv {s : State P} (h : Inv s) {fd : Fin NUM} {eparr : List Event}
    (hm : s.main = .read fd eparr) (ht : (s.devs fd).task none = .body (.read (CNT - 1))) :
    Inv s.runMain ∧ s.runMain.main = .loop eparr ∧
      (s.runMain.devs fd).dev.validlen < (s.devs fd).dev.validlen ∧
      ∀ other, other ≠ fd → s.runMain.devs other = s.devs other := by
  have hserver := h.server
  rw [hm] at hserver
  obtain ⟨-, hdata, hidle, hfresh, hready⟩ := hserver
  have hb := (h.devices fd).bounded
  have hlen := Kbuf.contents_length hb
  obtain ⟨hres, -⟩ | ⟨-, pdev', hread, hv, hc⟩ := readOut_cases hb (CNT - 1) .success
  · exact absurd (Nat.zero_min _) hres
  have htransfer : transfer (s.devs fd).dev (.read (CNT - 1)) .success = some
      ⟨(min (CNT - 1) (s.devs fd).dev.validlen : Nat), (s.devs fd).dev.contents.take (CNT - 1),
        pdev', true⟩ := hread
  rcases step_cases (h.devices fd) (.run none .success) with
    ⟨p, fate, call, o, heq, ht', ho, hdev, hothers, hdone, hret⟩ | ⟨hnone, -⟩
  case inr => simp [exchange, ht, htransfer] at hnone
  cases heq
  obtain rfl : .read (CNT - 1) = call := Wakeup.Task.body.inj (ht.symm.trans ht')
  obtain rfl := Option.some.inj (htransfer.symm.trans ho)
  have hgiven : given (s.devs fd) (.run none .success) =
      (s.devs fd).dev.contents.take (CNT - 1) := by
    simp only [given, exchange, ht, htransfer, Option.map_some, Option.elim_some]
    rfl
  have hout : ((s.devs fd).dev.contents.take (CNT - 1)).length =
      min (CNT - 1) (s.devs fd).dev.validlen := by
    rw [List.length_take, hlen]
  obtain ⟨buf, hprint⟩ := print_eq (s.drive fd (.run none .success)) fd
    ((s.devs fd).dev.contents.take (CNT - 1)) (hout ▸ Nat.min_le_left _ _) eparr
  have hrun : s.runMain = { s.drive fd (.run none .success) with
      buf
      main := .loop eparr
      printed := s.printed ++ [⟨fd, ((s.devs fd).dev.contents.take (CNT - 1)).length,
        (s.devs fd).dev.contents.take (CNT - 1),
        shown ((s.devs fd).dev.contents.take (CNT - 1))⟩] } := by
    simp only [State.runMain, hm, State.collect, drive_self, hdone, hret, List.getLast?_concat]
    rw [← hout, hprint]
    rfl
  have hpos : 0 < CNT - 1 := by decide
  rw [hrun]
  refine ⟨⟨drive_devices h, drive_writers h ?_, ?_, ?_, ?_, ?_, h.safe⟩, rfl, ?_, ?_⟩
  · intro p
    rcases hothers (some p) nofun with heq | heq
    · exact heq ▸ h.writers fd p
    · exact heq ▸ (h.writers fd p).wake _
  · refine ⟨fun fd' => ?_, hready.drive hfresh⟩
    by_cases hfd : fd' = fd
    · subst hfd
      rw [drive_self, hdone]
    · rw [drive_other hfd]
      exact hidle fd' hfd
  · -- the answer is the last one printed
    intro fd'
    have htold := h.told fd'
    rw [answers, answersTo, State.told] at htold
    by_cases hfd : fd' = fd
    · subst hfd
      simp [answers, answersTo, State.told, hret, htold, hout]
    · have hfd' : fd ≠ fd' := Ne.symm hfd
      simp [answers, answersTo, State.told, drive_other hfd, hfd', htold]
  · intro fd'
    have hacc := drive_account h fd (.run none .success) fd'
    show _ = (s.drive fd (.run none .success)).accepted fd'
    rw [← hacc, ← List.append_assoc, hgiven]
    by_cases hfd : fd' = fd
    · subst hfd
      simp [State.got]
    · have hfd' : fd ≠ fd' := Ne.symm hfd
      simp [State.got, hfd, hfd']
  · intro e he
    rcases List.mem_append.mp he with he | he
    · exact h.printed e he
    · obtain rfl := List.mem_singleton.mp he
      refine ⟨rfl, ?_, ?_, rfl⟩
      · rw [hout]
        exact Nat.lt_min.mpr ⟨hpos, Nat.pos_of_ne_zero hdata⟩
      · rw [hout]
        exact Nat.min_le_left _ _
  · show ((s.drive fd (.run none .success)).devs fd).dev.validlen < _
    rw [drive_self, hdev, hv]
    exact Nat.sub_lt (Nat.pos_of_ne_zero hdata)
      (Nat.lt_min.mpr ⟨hpos, Nat.pos_of_ne_zero hdata⟩)
  · exact fun other hne => drive_other hne

theorem scan_inv {s : State P} (h : Inv s) (fd : Fin NUM) : Inv (s.step (.scan fd)) := by
  cases hm : s.main with
  | epollWait eparr =>
    have hserver := h.server
    rw [hm] at hserver
    simp only [State.step, hm]
    by_cases hskip : reported (s.devs fd).dev = 0 ∨ fd ∈ eparr.map Event.fd
    · rw [if_pos hskip]
      exact h
    · rw [if_neg hskip]
      rw [not_or] at hskip
      have hdata := reported_spec.1.mp hskip.1
      refine ⟨h.devices, h.writers, ⟨hserver.1, ?_, ?_⟩, h.told, h.account, h.printed, h.safe⟩
      · rw [List.map_append]
        refine List.nodup_append.mpr ⟨hserver.2.once, List.nodup_singleton fd, ?_⟩
        rintro fd' hfd' fd'' hfd'' rfl
        have heq : fd' = fd := List.mem_singleton.mp hfd''
        exact hskip.2 (heq ▸ hfd')
      · intro e he
        rcases List.mem_append.mp he with he | he
        · exact hserver.2.data e he
        · obtain rfl := List.mem_singleton.mp he
          exact ⟨reported_spec.2.mpr hdata, hdata⟩
  | _ => simpa only [State.step, hm] using h

theorem runMain_inv {s : State P} (h : Inv s) : Inv s.runMain := by
  cases hm : s.main with
  | exited => simpa only [State.runMain, hm] using h
  | epollWait eparr =>
    have hserver := h.server
    rw [hm] at hserver
    cases eparr with
    | nil => simpa only [State.runMain, hm] using h
    | cons e eparr =>
      simp only [State.runMain, hm]
      exact ⟨h.devices, h.writers, hserver, h.told, h.account, h.printed, h.safe⟩
  | loop eparr =>
    have hserver := h.server
    rw [hm] at hserver
    cases eparr with
    | nil =>
      simp only [State.runMain, hm]
      exact ⟨h.devices, h.writers, hserver, h.told, h.account, h.printed, h.safe⟩
    | cons e eparr => exact (loop_inv h hm).1
  | read fd eparr =>
    have hserver := h.server
    rw [hm] at hserver
    cases hserver.1 with
    | inl ht =>
      obtain ⟨hcollect, -, hinv, -⟩ := read_test_inv h hm ht (Or.inl rfl)
      simpa only [State.runMain, hm, hcollect] using hinv
    | inr ht => exact (read_body_inv h hm ht).1

/-- A read that has left its wait is not disturbed by a signal. -/
theorem signal_body {s : State P} {fd : Fin NUM} {call : Call}
    (ht : (s.devs fd).task none = .body call) : s.drive fd (.signal none) = s := by
  have hstep : (s.devs fd).step (.signal none) = s.devs fd := by
    simp only [Wakeup.State.step, ht]
  simp [State.drive, hstep, taken, exchange]

theorem signal_inv {s : State P} (h : Inv s) : Inv (s.step .signal) := by
  cases hm : s.main with
  | exited | loop eparr => simpa only [State.step, hm] using h
  | epollWait eparr =>
    have hserver := h.server
    rw [hm] at hserver
    cases eparr with
    | nil =>
      simp only [State.step, hm]
      exact ⟨h.devices, h.writers, hserver.1, h.told, h.account, h.printed, h.safe⟩
    | cons e eparr => simpa only [State.step, hm] using h
  | read fd eparr =>
    have hserver := h.server
    rw [hm] at hserver
    cases hserver.1 with
    | inl ht =>
      obtain ⟨hcollect, -, hinv, -⟩ := read_test_inv h hm ht (Or.inr rfl)
      simpa only [State.step, hm, hcollect] using hinv
    | inr ht =>
      simp only [State.step, hm, signal_body ht]
      rw [collect_busy eparr (by simp [ht])]
      exact h

theorem step_inv {s : State P} (h : Inv s) (a : Act P) : Inv (s.step a) := by
  cases a with
  | user fd u => exact drive_user_inv h u
  | scan fd => exact scan_inv h fd
  | main => exact runMain_inv h
  | signal => exact signal_inv h

theorem start_inv (buf : FixedBuffer Byte CNT) : Inv (start buf : State P) where
  devices _ := Wakeup.start_inv
  writers _ _ := trivial
  server := ⟨fun _ => rfl, List.nodup_nil, nofun⟩
  told _ := rfl
  account _ := rfl
  printed := nofun
  safe := rfl

theorem run_inv (buf : FixedBuffer Byte CNT) (acts : List (Act P)) :
    Inv ((machine buf P).run acts) :=
  (machine buf P).run_invariant (start_inv buf) (fun _ a h => step_inv h a) acts

/-- Only a signal that comes while the server waits in `epoll_wait` ends it. -/
theorem step_exited {s : State P} (h : Inv s) {a : Act P} (hrun : s.main ≠ .exited)
    (hexit : (s.step a).main = .exited) : a = .signal ∧ s.main = .epollWait [] := by
  have hserver := h.server
  cases a with
  | signal =>
    refine ⟨rfl, ?_⟩
    cases hm : s.main with
    | exited => exact absurd hm hrun
    | epollWait eparr =>
      cases eparr with
      | nil => rfl
      | cons e eparr => simp [State.step, hm] at hexit
    | loop eparr => simp [State.step, hm] at hexit
    | read fd eparr =>
      rw [hm] at hserver
      cases hserver.1 with
      | inl ht =>
        obtain ⟨hcollect, -⟩ := read_test_inv h hm ht (Or.inr rfl)
        simp only [State.step, hm, hcollect] at hexit
        exact absurd hexit hrun
      | inr ht =>
        simp only [State.step, hm, signal_body ht] at hexit
        rw [collect_busy eparr (by simp [ht])] at hexit
        exact absurd hexit hrun
  | user fd u => exact absurd hexit hrun
  | scan fd =>
    cases hm : s.main with
    | epollWait eparr =>
      simp only [State.step, hm] at hexit
      split at hexit
      · exact absurd hexit hrun
      · cases hexit
    | exited => exact absurd hm hrun
    | loop eparr | read fd eparr => simp [State.step, hm] at hexit
  | main =>
    cases hm : s.main with
    | exited => exact absurd hm hrun
    | epollWait eparr => cases eparr <;> simp [State.step, State.runMain, hm] at hexit
    | loop eparr =>
      cases eparr with
      | nil => simp [State.step, State.runMain, hm] at hexit
      | cons e eparr => exact nomatch (loop_inv h hm).2.1.symm.trans hexit
    | read fd eparr =>
      rw [hm] at hserver
      cases hserver.1 with
      | inl ht =>
        obtain ⟨hcollect, -⟩ := read_test_inv h hm ht (Or.inl rfl)
        simp only [State.step, State.runMain, hm, hcollect] at hexit
        exact absurd hexit hrun
      | inr ht => exact nomatch (read_body_inv h hm ht).2.1.symm.trans hexit

def stored (s : State P) : Nat := ∑ fd, (s.devs fd).dev.validlen

/-- How far the server is from its next read. -/
def rank (s : State P) : Nat :=
  match s.main with
  | .exited => 0
  | .read fd _ =>
    match (s.devs fd).task none with
    | .body _ => 1
    | _ => 2
  | .loop (_ :: _) => 3
  | .epollWait (_ :: _) => 4
  | .epollWait [] => 5
  | .loop [] => 6

/-- What is stored, and the steps to the next read, of which there are fewer than eight. -/
def work (s : State P) : Nat := 8 * stored s + rank s

omit [DecidableEq P] in
theorem stored_congr {s s' : State P} (h : ∀ fd, (s'.devs fd).dev = (s.devs fd).dev) :
    stored s' = stored s := by
  simp only [stored, h]

omit [DecidableEq P] in
theorem work_lt {s s' : State P} (hdev : ∀ fd, (s'.devs fd).dev = (s.devs fd).dev)
    (hrank : rank s' < rank s) : work s' < work s := by
  rw [work, work, stored_congr hdev]
  omega

omit [DecidableEq P] in
theorem rank_le (s : State P) : rank s ≤ 6 := by
  unfold rank
  repeat' split
  all_goals decide

/-- While some device holds bytes the server has a step that brings it nearer to reading them. -/
theorem server_nearer {s : State P} (h : Inv s) (hrun : s.main ≠ .exited)
    (hdata : ¬ ∀ fd, (s.devs fd).dev.validlen = 0) :
    ∃ a : Act P, a.own ∧ (Inv (s.step a) ∧ (s.step a).main ≠ .exited) ∧
      work (s.step a) < work s := by
  have hserver := h.server
  have hgo {a : Act P} (ha : a.own) (hlt : work (s.step a) < work s) :
      ∃ a : Act P, a.own ∧ (Inv (s.step a) ∧ (s.step a).main ≠ .exited) ∧
        work (s.step a) < work s := by
    refine ⟨a, ha, ⟨step_inv h a, fun hexit => ?_⟩, hlt⟩
    rw [(step_exited h hrun hexit).1] at ha
    exact ha
  cases hm : s.main with
  | exited => exact absurd hm hrun
  | epollWait eparr =>
    cases eparr with
    | nil =>
      obtain ⟨fd, hfd⟩ := not_forall.mp hdata
      have hstep : s.step (.scan fd) =
          { s with main := .epollWait [⟨fd, reported (s.devs fd).dev⟩] } := by
        simp [State.step, hm, reported_spec.1.mpr hfd]
      apply hgo (a := .scan fd) trivial
      rw [hstep]
      exact work_lt (fun _ => rfl) (by simp [rank, hm])
    | cons e eparr =>
      have hstep : s.step .main = { s with main := .loop (e :: eparr) } := by
        simp only [State.step, State.runMain, hm]
      apply hgo (a := .main) trivial
      rw [hstep]
      exact work_lt (fun _ => rfl) (by simp [rank, hm])
  | loop eparr =>
    cases eparr with
    | nil =>
      have hstep : s.step .main = { s with main := .epollWait [] } := by
        simp only [State.step, State.runMain, hm]
      apply hgo (a := .main) trivial
      rw [hstep]
      exact work_lt (fun _ => rfl) (by simp [rank, hm])
    | cons e eparr =>
      obtain ⟨-, hmain, htask, hdev⟩ := loop_inv h hm
      apply hgo (a := .main) trivial
      exact work_lt hdev (by simp [rank, State.step, hm, hmain, htask])
  | read fd eparr =>
    rw [hm] at hserver
    cases hserver.1 with
    | inl ht =>
      obtain ⟨hcollect, htask, -, hdev⟩ := read_test_inv h hm ht (Or.inl rfl)
      have hstep : s.step .main = s.drive fd (.run none .success) := by
        simp only [State.step, State.runMain, hm, hcollect]
      have hmain : (s.drive fd (.run none .success)).main = .read fd eparr := hm
      rw [drive_self] at htask
      apply hgo (a := .main) trivial
      rw [hstep]
      exact work_lt hdev (by simp [rank, hm, hmain, htask, ht])
    | inr ht =>
      obtain ⟨-, hmain, hless, hothers⟩ := read_body_inv h hm ht
      have hstored : stored s.runMain < stored s := by
        apply Finset.sum_lt_sum
        · intro fd' _
          by_cases hfd : fd' = fd
          · subst hfd
            exact Nat.le_of_lt hless
          · rw [hothers fd' hfd]
        · exact ⟨fd, Finset.mem_univ fd, hless⟩
      have hrank := rank_le s.runMain
      apply hgo (a := .main) trivial
      show 8 * stored s.runMain + rank s.runMain < 8 * stored s + rank s
      omega

omit [DecidableEq P] in
theorem collect_accepted (s : State P) (fd : Fin NUM) (eparr : List Event) :
    (s.collect fd eparr).accepted = s.accepted := by
  unfold State.collect
  split
  · unfold State.print
    split
    · rfl
    · simp only
      split
      · rfl
      · split <;> rfl
  · rfl

/-- The server takes nothing from itself. -/
theorem own_accepted {s : State P} (h : Inv s) {a : Act P} (ha : a.own) :
    (s.step a).accepted = s.accepted := by
  have hdrive {fd : Fin NUM} {a : Wakeup.Act (Option P)} (hnone : taken (s.devs fd) a = []) :
      (s.drive fd a).accepted = s.accepted := by
    simp [State.drive, hnone]
  cases a with
  | user fd u => exact absurd ha id
  | signal => exact absurd ha id
  | scan fd =>
    cases hm : s.main with
    | epollWait eparr =>
      simp only [State.step, hm]
      split <;> rfl
    | _ => simp only [State.step, hm]
  | main =>
    cases hm : s.main with
    | exited => simp only [State.step, State.runMain, hm]
    | epollWait eparr => cases eparr <;> simp only [State.step, State.runMain, hm]
    | loop eparr =>
      cases eparr with
      | nil => simp only [State.step, State.runMain, hm]
      | cons e eparr =>
        simp only [State.step, State.runMain, hm]
        split
        · exact hdrive rfl
        · rfl
    | read fd eparr =>
      have hserver := h.server
      rw [hm] at hserver
      simp only [State.step, State.runMain, hm, collect_accepted]
      apply hdrive
      rcases hserver.1 with ht | ht
      · simp only [taken, exchange, ht, Option.elim_none]
      · obtain ⟨o, ho, -⟩ := transfer_cases (h.devices fd).bounded (.read (CNT - 1)) .success
        simp only [taken, exchange, ht, ho, Option.map_some, Option.elim_some]
        rfl

theorem can_serve {s : State P} (buf : FixedBuffer Byte CNT) (h : Inv s) (hrun : s.main ≠ .exited) :
    ∃ more : List (Act P), (∀ a ∈ more, a.own) ∧
      ∀ fd, ((machine buf P).runFrom s more).got fd = s.accepted fd := by
  obtain ⟨more, hown, ⟨hinv, -, hacc⟩, hempty⟩ := (machine buf P).reaches_of_measure
    (I := fun s' => Inv s' ∧ s'.main ≠ .exited ∧ s'.accepted = s.accepted)
    (G := fun s' => ∀ fd, (s'.devs fd).dev.validlen = 0) work
    (fun s' hs hdata => by
      obtain ⟨a, ha, hnext, hlt⟩ := server_nearer hs.1 hs.2.1 hdata
      exact ⟨a, ha, ⟨hnext.1, hnext.2, (own_accepted hs.1 ha).trans hs.2.2⟩, hlt⟩) ⟨h, hrun, rfl⟩
  refine ⟨more, hown, fun fd => ?_⟩
  have hnil : (((machine buf P).runFrom s more).devs fd).dev.contents = [] := by
    apply List.eq_nil_of_length_eq_zero
    rw [Kbuf.contents_length (hinv.devices fd).bounded, hempty fd]
  rw [← hacc, ← hinv.account fd, hnil, List.append_nil]

omit [DecidableEq P] in
theorem At.awake {devs : Fin NUM → Wakeup.State (Option P)} {m : Main} (h : At devs m)
    (fd : Fin NUM) : Awake ((devs fd).task none) := by
  cases m with
  | epollWait eparr => simp [Awake, h.1 fd]
  | loop eparr => simp [Awake, h.1 fd]
  | exited => simp [Awake, h fd]
  | read fd' eparr =>
    by_cases hfd : fd = fd'
    · subst hfd
      rcases h.1 with ht | ht
      · simp [Awake, ht]
      · simp [Awake, ht]
    · simp [Awake, h.2.2.1 fd hfd]

theorem output_eq_got {s : State P} (h : Inv s) {fd : Fin NUM} (hnul : 0 ∉ s.accepted fd) :
    s.output fd = s.got fd := by
  have htext : ∀ e ∈ s.printed.filter (fun e => e.fd = fd), e.text = e.out := by
    intro e he
    rw [(h.printed e (List.mem_filter.mp he).1).text]
    apply shown_of_no_nul
    intro h0
    apply hnul
    rw [← h.account fd]
    exact List.mem_append_left _ (List.mem_flatMap.mpr ⟨e, he, h0⟩)
  exact List.flatMap_congr htext

/-- How the server ends: a signal finds it in `epoll_wait`, with nothing to report. -/
theorem exited_by_signal (buf : FixedBuffer Byte CNT) (acts : List (Act P))
    (hexit : ((machine buf P).run acts).main = .exited) :
    ∃ before after, acts = before ++ .signal :: after ∧
      ((machine buf P).run before).main = .epollWait [] ∧
      ((machine buf P).run (before ++ [.signal])).main = .exited := by
  induction acts using List.reverseRecOn with
  | nil => cases hexit
  | append_singleton acts a ih =>
    by_cases hrun : ((machine buf P).run acts).main = .exited
    · obtain ⟨before, after, rfl, hwait, hends⟩ := ih hrun
      exact ⟨before, after ++ [a], by simp, hwait, hends⟩
    · have hends := hexit
      rw [Machine.run_concat] at hexit
      obtain ⟨rfl, hwait⟩ := step_exited (run_inv buf acts) hrun hexit
      exact ⟨acts, [], rfl, hwait, hends⟩

/-- The server with any number of writers on its devices, in any interleaving and with signals at
any time: no access leaves a buffer, no read of the server waits, and each one is answered with
between 1 and 511 bytes and printed. What it has got of a device and what is still stored are what
the device has accepted, and texts are printed whole. Only a signal in `epoll_wait` ends the server,
and until then it can by itself get everything that has been written. -/
theorem server_serves (buf : FixedBuffer Byte CNT) (acts : List (Act P)) :
    let s := (machine buf P).run acts
    (s.fault = false ∧ ∀ fd, (s.devs fd).fault = false ∧ (s.devs fd).dev.Bounded ∧
      Awake ((s.devs fd).task none)) ∧
    (∀ fd, answers s fd = s.told fd ∧
      ∀ r ∈ answers s fd, r.ret = r.out.length ∧ 1 ≤ r.ret ∧ r.ret ≤ 511) ∧
    (∀ fd, s.got fd ++ (s.devs fd).dev.contents = s.accepted fd ∧
      (0 ∉ s.accepted fd → s.output fd = s.got fd)) ∧
    (s.main = .exited → ∃ before after, acts = before ++ .signal :: after ∧
      ((machine buf P).run before).main = .epollWait [] ∧
      ((machine buf P).run (before ++ [.signal])).main = .exited) ∧
    (s.main ≠ .exited → ∃ more : List (Act P), (∀ a ∈ more, a.own) ∧
      ∀ fd, ((machine buf P).runFrom s more).got fd = s.accepted fd) := by
  intro s
  have h : Inv s := run_inv buf acts
  refine ⟨⟨h.safe, fun fd => ?_⟩, fun fd => ⟨h.told fd, ?_⟩,
    fun fd => ⟨h.account fd, output_eq_got h⟩, exited_by_signal buf acts, can_serve buf h⟩
  · exact ⟨(h.devices fd).safe, (h.devices fd).bounded, h.server.awake fd⟩
  · intro r hr
    rw [h.told fd] at hr
    obtain ⟨e, he, rfl⟩ := List.mem_map.mp hr
    obtain ⟨hret, hpos, hfits, -⟩ := h.printed e (List.mem_filter.mp he).1
    show e.ret = e.out.length ∧ 1 ≤ e.ret ∧ e.ret ≤ 511
    rw [hret]
    exact ⟨rfl, Int.ofNat_le.mpr hpos, Int.ofNat_le.mpr hfits⟩

end KernelDrivers.Kbufdrv.Server
