import KernelDrivers.Kbufdrv.Chardrv
import KernelDrivers.Kbufdrv.Locked
import KernelDrivers.Kbufdrv.Wakeup

namespace KernelDrivers.Kbufdrv

open Framework Kernel

section Body

/-- The stages of a call before it has bytes for the user. -/
def BodyPc.early : BodyPc → Bool
  | .test | .min | .copy => true
  | .memmove | .update => false

/-- A step of the body keeps the call, and a call that has failed has handed out nothing. -/
inductive Follows (fr : Frame) : Move → Prop where
  | stay : Follows fr .stay
  | fault : Follows fr .fault
  | next {pc : BodyPc} {dev : Kbuf} {fr' : Frame} (call : fr'.call = fr.call)
      (out : pc.early = true → fr'.out = []) : Follows fr (.next pc dev fr')
  | error {dev : Kbuf} {ret : Int} (out : fr.out = []) : Follows fr (.error dev ret)
  | done {dev : Kbuf} : Follows fr (.done dev fr)

theorem copyStep_follows (dev : Kbuf) {fr : Frame} (hout : fr.out = []) (fate : CopyFate) :
    Follows fr (copyStep dev fr fate) := by
  cases hcall : fr.call with
  | read cnt =>
    simp only [copyStep, hcall]
    cases dev.copyToUser fr.cnt fate with
    | none => exact .fault
    | some e =>
      by_cases h0 : e.1 = 0
      · simp only [h0, ne_eq, not_true_eq_false, if_false]
        exact .next hcall.symm fun h => absurd h (by decide)
      · simp only [h0, ne_eq, not_false_eq_true, if_true]
        exact .error hout
  | write buf =>
    simp only [copyStep, hcall]
    cases dev.copyFromUser (buf.take fr.cnt) fate with
    | none => exact .fault
    | some e =>
      by_cases h0 : e.1 = 0
      · simp only [h0, ne_eq, not_true_eq_false, if_false]
        exact .next rfl fun h => absurd h (by decide)
      · simp only [h0, ne_eq, not_false_eq_true, if_true]
        exact .error hout

theorem bodyStep_follows (guard : Guard) (env : Env) {pc : BodyPc} (dev : Kbuf) {fr : Frame}
    (hout : pc.early = true → fr.out = []) : Follows fr (bodyStep guard env pc dev fr) := by
  cases pc with
  | test =>
    simp only [bodyStep]
    by_cases hr : fr.call.ready dev = true
    · rw [if_pos hr]
      exact .next rfl fun _ => hout rfl
    · rw [if_neg hr]
      cases guard with
      | refuse => exact .error (hout rfl)
      | wait =>
        by_cases hs : env.signal = true
        · simp only [hs, if_true]
          exact .error (hout rfl)
        · simp only [hs]
          exact .stay
  | min => exact .next rfl fun _ => hout rfl
  | copy => exact copyStep_follows dev (hout rfl) env.fate
  | memmove =>
    simp only [bodyStep]
    cases dev.shiftDown fr.cnt with
    | none => exact .fault
    | some dev' => exact .next rfl fun h => absurd h (by decide)
  | update => exact .done

end Body

namespace Locked

variable {σ P : Type*} [DecidableEq P] {lk : Lock σ}

/-- A call and enough steps of its process to bring it to its end; steps after the end do
nothing. -/
def solo (p : P) (call : Call) (fate : CopyFate) : List (Act P) :=
  .invoke p call :: List.replicate 8 (.run p fate)

/-- The call of `p` that was in progress has returned with `o`, and the lock is free. -/
structure Returned (lk : Lock σ) (s s' : State σ P) (p : P) (id : Nat) (call : Call)
    (o : Outcome) : Prop where
  dev : s'.dev = o.dev
  lock : s'.lock = lk.free
  session : s'.session = Function.update s.session p none
  safe : s'.fault = s.fault
  answer : ∃ failed, s'.history = s.history ++ [.respond id ⟨call, failed⟩ ⟨o.ret, o.out⟩]

theorem runFrom_idle {s : State σ P} {p : P} (hs : s.session p = none) (fate : CopyFate) (n : Nat) :
    (machine lk P).runFrom s (List.replicate n (.run p fate)) = s := by
  induction n with
  | zero => rfl
  | succ n ih =>
    have hstep : step lk s (.run p fate) = s := by simp only [step, hs]
    rw [List.replicate_succ, Machine.runFrom, List.foldl_cons]
    show (machine lk P).runFrom (step lk s (.run p fate)) _ = s
    rw [hstep]
    exact ih

theorem runFrom_run {s : State σ P} {p : P} {c : Session} (hs : s.session p = some c)
    (fate : CopyFate) (n : Nat) :
    (machine lk P).runFrom s (List.replicate (n + 1) (.run p fate)) =
      (machine lk P).runFrom (advance lk s p c fate) (List.replicate n (.run p fate)) := by
  have hstep : step lk s (.run p fate) = advance lk s p c fate := by simp only [step, hs]
  rw [List.replicate_succ, Machine.runFrom, List.foldl_cons]
  show (machine lk P).runFrom (step lk s (.run p fate)) _ = _
  rw [hstep]

theorem Returned.of_goto {s s' : State σ P} {p : P} {c : Session} {dev : Kbuf} {lock : σ} {id : Nat}
    {call : Call} {o : Outcome}
    (h : Returned lk (State.goto { s with dev, lock } p c) s' p id call o) :
    Returned lk s s' p id call o := by
  refine ⟨h.dev, h.lock, ?_, h.safe, h.answer⟩
  rw [h.session]
  exact Function.update_idem ..

/-- The last step of a call that holds the lock. -/
theorem leave_returned {s : State σ P} {p : P} {c : Session} (hs : s.session p = some c)
    (hpc : c.pc = .unlock ∨ c.pc = .error0) (hl : s.lock = lk.held) (fate : CopyFate) (n : Nat)
    {o : Outcome} (hdev : s.dev = o.dev) (hret : c.ret = o.ret) (hout : c.fr.out = o.out) :
    Returned lk s ((machine lk P).runFrom s (List.replicate (n + 1) (.run p fate))) p c.id
      c.fr.call o := by
  have hleave : advance lk s p c fate =
      State.leave { s with lock := lk.release s.lock } p { c with unlocks := c.unlocks + 1 } := by
    cases hpc with
    | inl h => simp only [advance, h]
    | inr h => simp only [advance, h]
  rw [runFrom_run hs, hleave, runFrom_idle (by simp [State.leave])]
  refine ⟨hdev, ?_, rfl, rfl, c.failed, ?_⟩
  · show lk.release s.lock = lk.free
    rw [hl, lk.release_held]
  · rw [← hret, ← hout]
    rfl

/-- A call alone in its critical section ends as the sequential body does. -/
theorem body_returned {s : State σ P} {p : P} {c : Session} {pc : BodyPc} {fate : CopyFate}
    {o : Outcome} (hs : s.session p = some c) (hpc : c.pc = .body pc) (hl : s.lock = lk.held)
    (hout : pc.early = true → c.fr.out = []) (n k : Nat)
    (ho : bodyRun .refuse ⟨fate, false⟩ n pc s.dev c.fr = some o) :
    Returned lk s ((machine lk P).runFrom s (List.replicate (n + 1 + k) (.run p fate))) p c.id
      c.fr.call o := by
  induction n generalizing s c pc with
  | zero => cases ho
  | succ n ih =>
    have hlen : n + 1 + 1 + k = n + k + 1 + 1 := by omega
    have hfollows := bodyStep_follows .refuse ⟨fate, false⟩ s.dev hout
    rw [hlen, runFrom_run hs]
    simp only [advance, hpc]
    simp only [bodyRun] at ho
    cases hmove : bodyStep .refuse ⟨fate, false⟩ pc s.dev c.fr with
    | stay => rw [hmove] at ho; cases ho
    | fault => rw [hmove] at ho; cases ho
    | next pc' dev' fr' =>
      rw [hmove] at ho hfollows
      obtain ⟨hcall, hout'⟩ : fr'.call = c.fr.call ∧ (pc'.early = true → fr'.out = []) := by
        cases hfollows with
        | next call out => exact ⟨call, out⟩
      simp only [Session.after]
      have hnext := ih
        (s := State.goto { s with dev := dev' } p { c.meets pc fate with pc := .body pc', fr := fr' })
        (Function.update_self ..) rfl hl hout' ho
      rw [show n + k + 1 = n + 1 + k by omega]
      rw [hcall] at hnext
      exact hnext.of_goto
    | error dev' ret =>
      rw [hmove] at ho hfollows
      obtain rfl := Option.some.inj ho
      obtain hnone : c.fr.out = [] := by
        cases hfollows with
        | error out => exact out
      simp only [Session.after]
      have hend := leave_returned (s := State.goto { s with dev := dev' } p
        { c.meets pc fate with pc := .error0, ret }) (o := ⟨ret, [], dev', false⟩)
        (Function.update_self ..) (Or.inr rfl) hl fate (n + k) rfl rfl hnone
      exact hend.of_goto
    | done dev' fr' =>
      rw [hmove] at ho hfollows
      obtain rfl := Option.some.inj ho
      obtain rfl : fr' = c.fr := by
        cases hfollows with
        | done => rfl
      simp only [Session.after]
      have hend := leave_returned (s := State.goto { s with dev := dev' } p
        { c.meets pc fate with pc := .unlock, ret := c.fr.cnt }) (o := ⟨c.fr.cnt, c.fr.out, dev', true⟩)
        (Function.update_self ..) (Or.inl rfl) hl fate (n + k) rfl rfl rfl
      exact hend.of_goto

/-- A call that nobody else interrupts is the sequential call of the driver that does not wait,
and leaves the lock as it found it. -/
theorem solo_call {s : State σ P} {p : P} (hb : s.dev.Bounded) (hl : s.lock = lk.free)
    (hs : s.session p = none) (call : Call) (fate : CopyFate) :
    ∃ o, Chardrv.fops s.dev call fate = some o ∧
      Returned lk { s with history := s.history ++ [.invoke s.nextId call] }
        ((machine lk P).runFrom s (solo p call fate)) p s.nextId call o := by
  obtain ⟨o, ho, -⟩ := Chardrv.fops_refines hb call fate
  refine ⟨o, ho, ?_⟩
  let s₁ : State σ P :=
    { s with history := s.history ++ [.invoke s.nextId call], nextId := s.nextId + 1 }
  let c : Session := .enter s.nextId call
  let s₂ : State σ P := (s₁.goto p c).goto p { c with pc := .lock }
  have hinvoke : step lk s (.invoke p call) = s₁.goto p c := by simp only [step, hs, s₁, c]
  rw [solo, Machine.runFrom, List.foldl_cons]
  show Returned _ _ ((machine lk P).runFrom (step lk s (.invoke p call)) _) _ _ _ _
  rw [hinvoke, runFrom_run (Function.update_self ..)]
  rw [Chardrv.fops_eq] at ho
  by_cases h0 : call.cnt = 0
  · have henter : advance lk (s₁.goto p c) p c fate = (s₁.goto p c).leave p c := if_pos h0
    rw [if_pos h0] at ho
    obtain rfl := Option.some.inj ho
    rw [henter, runFrom_idle (by simp [State.leave])]
    exact ⟨rfl, hl, Function.update_idem .., rfl, false, rfl⟩
  · have henter : advance lk (s₁.goto p c) p c fate = s₂ := if_neg h0
    have hacquire : lk.acquire s₂.lock = some lk.held := by
      show lk.acquire s.lock = _
      rw [hl, lk.acquire_free]
    let s₃ : State σ P :=
      State.goto { s₂ with lock := lk.held } p { c with pc := .body .test, locks := 1 }
    have hlock : advance lk s₂ p { c with pc := .lock } fate = s₃ := by
      simp only [advance, hacquire]
      rfl
    rw [if_neg h0, ← bodyRun_eq ⟨fate, false⟩] at ho
    have hheld : s₃.lock = lk.held := rfl
    have hbody := body_returned (Function.update_self ..) rfl hheld (fun _ => rfl) 5 0 ho
    rw [henter, runFrom_run (Function.update_self ..), hlock]
    refine ⟨hbody.dev, hbody.lock, ?_, hbody.safe, hbody.answer⟩
    rw [hbody.session]
    simp only [State.goto, Function.update_idem, s₃, s₂, s₁]

end Locked

namespace Poll

open Wakeup

/-- Whether a call that is issued now goes to sleep in `wait_event_interruptible`. -/
def sleeps (pdev : Kbuf) (call : Call) : Bool := call.cnt != 0 && !call.ready pdev

/-- `kbuf_poll` on a device that nobody else changes; the two `poll_wait`s leave the mask as
it is. -/
def kbufPoll (pdev : Kbuf) : Nat :=
  let mask := 0
  let mask := if pdev.validlen != 0 then mask ||| (POLLIN ||| POLLRDNORM) else mask
  if pdev.validlen != SZ_512 then mask ||| (POLLOUT ||| POLLWRNORM) else mask

theorem sleeps_iff (pdev : Kbuf) (call : Call) :
    sleeps pdev call = true ↔ call.cnt ≠ 0 ∧ call.ready pdev = false := by
  simp [sleeps]

theorem fops_awake {pdev : Kbuf} {call : Call} (h : sleeps pdev call = false) (fate : CopyFate) :
    Poll.fops pdev call fate = Chardrv.fops pdev call fate := by
  rw [Poll.fops_eq, Chardrv.fops_eq]
  by_cases h0 : call.cnt = 0
  · rw [if_pos h0, if_pos h0]
  · have hr : ¬ call.ready pdev = false := by
      intro hr
      rw [(sleeps_iff pdev call).mpr ⟨h0, hr⟩] at h
      cases h
    rw [if_neg h0, if_neg h0, if_neg hr, if_neg hr]

/-- The driver that does not wait refuses the calls that sleep in this one. -/
theorem refused_iff_sleeps {pdev : Kbuf} (hb : pdev.Bounded) {call : Call} {fate : CopyFate}
    {o : Outcome} (ho : Chardrv.fops pdev call fate = some o) :
    o.ret = call.refusal ↔ sleeps pdev call = true := by
  have hneg := call.refusal_neg
  rw [sleeps_iff]
  rw [Chardrv.fops_eq] at ho
  by_cases h0 : call.cnt = 0
  · rw [if_pos h0] at ho
    obtain rfl := Option.some.inj ho
    constructor
    · intro h
      simp only at h
      omega
    · exact fun h => absurd h0 h.1
  rw [if_neg h0] at ho
  by_cases hr : call.ready pdev = false
  · rw [if_pos hr] at ho
    obtain rfl := Option.some.inj ho
    exact ⟨fun _ => ⟨h0, hr⟩, fun _ => rfl⟩
  rw [if_neg hr] at ho
  obtain ⟨o', ho', -, hend⟩ := transfer_cases hb call fate
  obtain rfl := Option.some.inj (ho.symm.trans ho')
  constructor
  · intro h
    rcases hend with ⟨-, hret, -⟩ | ⟨-, -, heff⟩
    · rw [hret] at h
      cases call <;> simp [Call.refusal, eio, eagain, enospc] at h
    · have hnn := fifoEffect_ret_nonneg pdev.contents call
      rw [← heff] at hnn
      simp only at hnn
      omega
  · exact fun h => absurd h.2 hr

section Process

variable {P : Type*} [DecidableEq P] {s : State P} {p : P}

/-- A process that issues a call is asleep after its test when the call sleeps. -/
theorem asleep_iff (hp : s.task p = .idle) (call : Call) (fate : CopyFate) :
    ((machine P).runFrom s [.invoke p call, .run p fate]).task p = .asleep call ↔
      sleeps s.dev call = true := by
  rw [sleeps_iff]
  simp only [Machine.runFrom, List.foldl_cons, List.foldl_nil, machine]
  by_cases h0 : call.cnt = 0
  · simp [State.step, hp, h0, State.kbufPoll, State.leave, State.goto]
  · have hinvoke : s.step (.invoke p call) = s.goto p (.test call) := by
      simp only [State.step, hp, if_neg h0]
    rw [hinvoke]
    by_cases hr : call.ready s.dev = true <;>
      simp [State.step, State.testAndSleep, State.goto, h0, hr]

/-- The steps of `kbuf_poll` in a process that nobody else interrupts end with its mask. -/
theorem polled_mask (hp : s.task p = .idle) (fate : CopyFate) :
    ∃ poller, ((machine P).runFrom s (.invokePoll p :: List.replicate 4 (.run p fate))).task p =
      .polled poller ∧ poller.mask = kbufPoll s.dev := by
  refine ⟨⟨kbufPoll s.dev, Function.update (fun _ => false) .waitw false⟩, ?_, rfl⟩
  simp only [Machine.runFrom, List.foldl_cons, List.replicate, List.foldl_nil, machine]
  have hinvoke : s.step (.invokePoll p) = s.goto p .pollRegisterr := by simp only [State.step, hp]
  rw [hinvoke]
  by_cases hv : s.dev.validlen = 0 <;> by_cases hf : s.dev.validlen = SZ_512 <;>
    simp [State.step, State.kbufPoll, State.goto, kbufPoll, hv, hf]

end Process

end Poll

/-- The byte buffer without waits, the one behind a mutex and the polling one compute the same
function, and the polling one sleeps where the other two refuse. -/
theorem variants_agree {P : Type*} [DecidableEq P] (pdev : Kbuf) (hb : pdev.validlen ≤ SZ_512)
    (call : Call) (fate : CopyFate) (p : P) :
    ∃ o, Chardrv.fops pdev call fate = some o ∧
      (∀ s : Locked.State Bool P,
        s.dev = pdev → s.lock = Locked.mutex.free → s.session p = none →
        Locked.Returned Locked.mutex
          { s with history := s.history ++ [.invoke s.nextId call] }
          ((Locked.machine Locked.mutex P).runFrom s (Locked.solo p call fate))
          p s.nextId call o) ∧
      (call.cnt = 0 ∨ call.ready pdev = true → Poll.fops pdev call fate = some o) ∧
      ∀ s : Wakeup.State P, s.dev = pdev → s.task p = .idle →
        (((Wakeup.machine P).runFrom s [.invoke p call, .run p fate]).task p = .asleep call ↔
          o.ret = call.refusal) := by
  obtain ⟨o, ho, -⟩ := Chardrv.fops_refines hb call fate
  refine ⟨o, ho, ?_, ?_, ?_⟩
  · intro s hdev hl hs
    subst hdev
    obtain ⟨o', ho', hret⟩ := Locked.solo_call hb hl hs call fate
    obtain rfl := Option.some.inj (ho.symm.trans ho')
    exact hret
  · intro h
    have hawake : Poll.sleeps pdev call = false := by
      rw [Bool.eq_false_iff, ne_eq, Poll.sleeps_iff]
      intro hs
      rcases h with h0 | hr
      · exact hs.1 h0
      · exact absurd (hr.symm.trans hs.2) (by decide)
    rw [Poll.fops_awake hawake, ho]
  · intro s hdev hp
    subst hdev
    rw [Poll.asleep_iff hp, Poll.refused_iff_sleeps hb ho]

/-- A write on a fresh device. -/
theorem variants_agree_on_write :
    ∃ o, Chardrv.fops .fresh (.write [1, 2]) .success = some o ∧
      Locked.Returned Locked.mutex
        { Locked.start Locked.mutex with history := [.invoke 0 (.write [1, 2])] }
        ((Locked.machine Locked.mutex Bool).run (Locked.solo true (.write [1, 2]) .success))
        true 0 (.write [1, 2]) o ∧
      Poll.fops .fresh (.write [1, 2]) .success = some o := by
  obtain ⟨o, ho, hlocked, hpoll, -⟩ :=
    variants_agree .fresh (Nat.zero_le _) (.write [1, 2]) .success true
  exact ⟨o, ho, hlocked (Locked.start Locked.mutex) rfl rfl rfl, hpoll (Or.inr rfl)⟩

namespace Poll

open Wakeup

/-- A call that is issued now does not sleep, and returns a positive count if its copy
succeeds. -/
def Serves (pdev : Kbuf) (call : Call) (fate : CopyFate) : Prop :=
  sleeps pdev call = false ∧
    ∃ o, Poll.fops pdev call fate = some o ∧ ((call.op pdev fate).failed = false → 0 < o.ret)

theorem serves_iff {pdev : Kbuf} (hb : pdev.Bounded) {c : Call} (h0 : c.cnt ≠ 0)
    (fate : CopyFate) : Serves pdev c fate ↔ c.ready pdev = true := by
  constructor
  · intro h
    have hawake := h.1
    simp only [sleeps, Bool.and_eq_false_iff, Bool.not_eq_false'] at hawake
    cases hawake with
    | inl hz => exact absurd (by simpa using hz) h0
    | inr hr => exact hr
  · intro hr
    have hbound : pdev.validlen ≤ SZ_512 := hb
    obtain ⟨o, ho, -, hend⟩ := transfer_cases hb c fate
    refine ⟨by simp [sleeps, hr], o, ?_, ?_⟩
    · rw [Poll.fops_eq, if_neg h0, if_neg (by simp [hr]), ho]
    · intro hcopied
      rcases hend with ⟨hf, -⟩ | ⟨-, -, heff⟩
      · exact absurd (hf.symm.trans hcopied) (by decide)
      · have hret := congrArg (fun e => e.2.ret) heff
        cases c with
        | read cnt =>
          have hv : pdev.validlen ≠ 0 := by simpa [Call.ready] using hr
          have hcnt : cnt ≠ 0 := h0
          simp only [fifoEffect, Kbuf.contents_length hb] at hret
          omega
        | write buf =>
          have hv : pdev.validlen ≠ SZ_512 := by simpa [Call.ready] using hr
          have hcnt : buf.length ≠ 0 := h0
          simp only [fifoEffect, Kbuf.contents_length hb] at hret
          omega

theorem callAll_bounded {pdev : Kbuf} (hb : pdev.Bounded) (calls : List (Call × CopyFate)) :
    ∃ os, callAll Poll.fops pdev calls = some os ∧ (lastDev pdev os).Bounded := by
  induction calls generalizing pdev with
  | nil => exact ⟨[], rfl, hb⟩
  | cons c cs ih =>
    obtain ⟨o, ho, hbo, -⟩ := poll_waitSpec hb c.1 c.2
    obtain ⟨os, hos, hbs⟩ := ih hbo
    refine ⟨o :: os, ?_, hbs⟩
    rw [callAll, ho, Option.bind_some, hos, Option.map_some]

theorem kbufPoll_pollin (pdev : Kbuf) :
    kbufPoll pdev &&& POLLIN ≠ 0 ↔ pdev.validlen ≠ 0 := by
  have hbit : (pdev.validlen != 0) = true ↔ pdev.validlen ≠ 0 := bne_iff_ne
  rw [← hbit, kbufPoll]
  cases pdev.validlen != 0 <;> cases pdev.validlen != SZ_512 <;> decide

theorem kbufPoll_pollout (pdev : Kbuf) :
    kbufPoll pdev &&& POLLOUT ≠ 0 ↔ pdev.validlen ≠ SZ_512 := by
  have hbit : (pdev.validlen != SZ_512) = true ↔ pdev.validlen ≠ SZ_512 := bne_iff_ne
  rw [← hbit, kbufPoll]
  cases pdev.validlen != 0 <;> cases pdev.validlen != SZ_512 <;> decide

/-- After any sequence of reads and writes the mask of `kbuf_poll` says which calls would be
served, and it is never empty. -/
theorem poll_mask_truthful (calls : List (Call × CopyFate)) :
    ∃ os, callAll Poll.fops .fresh calls = some os ∧
      (∀ cnt fate, cnt ≠ 0 →
        (kbufPoll (lastDev .fresh os) &&& POLLIN ≠ 0 ↔
          Serves (lastDev .fresh os) (.read cnt) fate)) ∧
      (∀ buf fate, buf.length ≠ 0 →
        (kbufPoll (lastDev .fresh os) &&& POLLOUT ≠ 0 ↔
          Serves (lastDev .fresh os) (.write buf) fate)) ∧
      (kbufPoll (lastDev .fresh os) &&& POLLIN ≠ 0 ∨
        kbufPoll (lastDev .fresh os) &&& POLLOUT ≠ 0) := by
  obtain ⟨os, hos, hb⟩ := callAll_bounded Kbuf.fresh_bounded calls
  refine ⟨os, hos, ?_, ?_, ?_⟩
  · intro cnt fate h0
    have hserves := serves_iff hb (c := .read cnt) h0 fate
    rw [kbufPoll_pollin, hserves, Call.ready, bne_iff_ne]
  · intro buf fate h0
    have hserves := serves_iff hb (c := .write buf) h0 fate
    rw [kbufPoll_pollout, hserves, Call.ready, bne_iff_ne]
  · rw [kbufPoll_pollin, kbufPoll_pollout]
    by_contra h
    rw [not_or, not_not, not_not] at h
    exact absurd (h.1.symm.trans h.2) (by decide)

end Poll

end KernelDrivers.Kbufdrv
