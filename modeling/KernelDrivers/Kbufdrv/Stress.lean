import Mathlib.Algebra.Ring.Nat
import KernelDrivers.Framework.CString
import KernelDrivers.Framework.ForkJoin
import KernelDrivers.Kbufdrv.Locked

namespace KernelDrivers.Kbufdrv

open Framework Kernel

namespace Locked

variable {σ P : Type*} {lk : Lock σ} {s : State σ P} {p : P} {c : Session}

/-- How far a call is from its return. -/
def Pc.rank : Pc → Nat
  | .enter => 9
  | .lock => 8
  | .body .test => 7
  | .body .min => 6
  | .body .copy => 5
  | .body .memmove => 4
  | .body .update => 3
  | .unlock => 2
  | .error0 => 2

theorem bodyStep_lower (env : Env) (pc : BodyPc) (dev : Kbuf) (fr : Frame) :
    match bodyStep .refuse env pc dev fr with
    | .next pc' _ fr' => (Pc.body pc').rank < (Pc.body pc).rank ∧ fr'.call = fr.call
    | .done _ fr' => fr' = fr
    | .stay => False
    | _ => True := by
  cases pc with
  | test => by_cases h : fr.call.ready dev = true <;> simp [bodyStep, h, Pc.rank]
  | min => simp [bodyStep, Pc.rank]
  | copy =>
    cases hcall : fr.call with
    | read cnt =>
      simp only [bodyStep, copyStep, hcall]
      cases dev.copyToUser fr.cnt env.fate with
      | none => trivial
      | some e => by_cases h : e.1 = 0 <;> simp [h, Pc.rank]
    | write buf =>
      simp only [bodyStep, copyStep, hcall]
      cases dev.copyFromUser (buf.take fr.cnt) env.fate with
      | none => trivial
      | some e => by_cases h : e.1 = 0 <;> simp [h, Pc.rank, hcall]
  | memmove =>
    simp only [bodyStep]
    cases dev.shiftDown fr.cnt with
    | none => trivial
    | some dev' => simp [Pc.rank]
  | update => simp [bodyStep]

variable [DecidableEq P]

/-- A step of a call leads on in it, or returns what was asked for with an answer. -/
theorem advance_cases (lk : Lock σ) (fate : CopyFate) (hc : s.session p = some c) :
    (∃ c', c'.fr.call = c.fr.call ∧
      (advance lk s p c fate).session = Function.update s.session p (some c') ∧
      (advance lk s p c fate).history = s.history) ∨
    (∃ op resp, op.call = c.fr.call ∧
      (advance lk s p c fate).session = Function.update s.session p none ∧
      (advance lk s p c fate).history = s.history ++ [.respond c.id op resp]) := by
  have hsame : Function.update s.session p (some c) = s.session := by
    rw [← hc]
    exact Function.update_eq_self p s.session
  cases hpc : c.pc with
  | enter =>
    simp only [advance, hpc]
    split
    · exact Or.inr ⟨_, _, rfl, rfl, rfl⟩
    · exact Or.inl ⟨{ c with pc := .lock }, rfl, rfl, rfl⟩
  | lock =>
    simp only [advance, hpc]
    cases lk.acquire s.lock with
    | none => exact Or.inl ⟨c, rfl, hsame.symm, rfl⟩
    | some lock =>
      exact Or.inl ⟨{ c with pc := .body .test, locks := c.locks + 1 }, rfl, rfl, rfl⟩
  | body pc =>
    have hlower := bodyStep_lower ⟨fate, false⟩ pc s.dev c.fr
    simp only [advance, hpc]
    left
    generalize bodyStep .refuse ⟨fate, false⟩ pc s.dev c.fr = move at hlower ⊢
    cases move with
    | stay => exact absurd hlower id
    | fault => exact ⟨c, rfl, hsame.symm, rfl⟩
    | next pc' dev fr => exact ⟨_, hlower.2, rfl, rfl⟩
    | error dev ret => exact ⟨{ c.meets pc fate with pc := .error0, ret }, rfl, rfl, rfl⟩
    | done dev fr => exact ⟨_, congrArg Frame.call hlower, rfl, rfl⟩
  | unlock =>
    simp only [advance, hpc]
    exact Or.inr ⟨_, _, rfl, rfl, rfl⟩
  | error0 =>
    simp only [advance, hpc]
    exact Or.inr ⟨_, _, rfl, rfl, rfl⟩

/-- A call that does not find the lock taken gets nearer to its return. -/
theorem advance_lower (h : Inv lk s) (hc : s.session p = some c)
    (hlock : c.pc = .lock → s.lock = lk.free) (fate : CopyFate) :
    ∀ c', (advance lk s p c fate).session p = some c' → c'.pc.rank < c.pc.rank := by
  intro c' hc'
  have hsafe := (step_inv h (.run p fate)).safe
  simp only [step, hc] at hsafe
  cases hpc : c.pc with
  | enter =>
    simp only [advance, hpc] at hc'
    split at hc'
    · simp [State.leave] at hc'
    · obtain rfl : _ = c' := by simpa [State.goto] using hc'
      simp [Pc.rank]
  | lock =>
    simp only [advance, hpc, hlock hpc, lk.acquire_free] at hc'
    obtain rfl : _ = c' := by simpa [State.goto] using hc'
    simp [Pc.rank]
  | body pc =>
    have hlower := bodyStep_lower ⟨fate, false⟩ pc s.dev c.fr
    simp only [advance, hpc] at hc' hsafe
    generalize bodyStep .refuse ⟨fate, false⟩ pc s.dev c.fr = move at hlower hc' hsafe
    cases move with
    | stay => exact absurd hlower id
    | fault => simp [Session.after] at hsafe
    | next pc' dev fr =>
      obtain rfl : _ = c' := by simpa [Session.after, State.goto] using hc'
      exact hlower.1
    | error dev ret =>
      obtain rfl : _ = c' := by simpa [Session.after, State.goto] using hc'
      cases pc <;> simp [Pc.rank]
    | done dev fr =>
      obtain rfl : _ = c' := by simpa [Session.after, State.goto] using hc'
      cases pc <;> simp [Pc.rank]
  | unlock =>
    simp only [advance, hpc] at hc'
    simp [State.leave] at hc'
  | error0 =>
    simp only [advance, hpc] at hc'
    simp [State.leave] at hc'

end Locked

namespace Stress

def SZ : Nat := 512

def PROCESS_NR : Nat := 200

/-- locks/mutex/app and locks/semaphore/app: `read.c`, and `write.c` with the file that it is
given. -/
inductive Program where
  | read
  | write (file : List Byte)

/-- Where a forked process is. `fetch` and `read` make up its `read` of the file: the offset of
the open file, which all processes share, is taken and set apart from the copying. -/
inductive Child where
  | lseek
  | fetch
  | read (pos : Nat)
  | call (call : Call)
  | inside (call : Call)
  | print (resp : Resp)

/-- What a process prints: that it could not read the file, the error of its call, or the number of
bytes, with the text as `%s` shows it. -/
inductive Report where
  | file
  | error (ret : Int)
  | ok (num : Int) (text : List Byte)
  deriving DecidableEq

/-- What the processes share: the driver and the offset of the file; `answers` keeps what the
driver has answered to whom. -/
structure Shared (σ : Type*) where
  drv : Locked.State σ Nat
  pos : Nat
  answers : List (Nat × Op × Resp)

structure Env where
  fate : CopyFate
  /-- Whether the file can be read. -/
  readable : Bool

/-- The line of a process; a reader puts a NUL behind what it has got. -/
def report (resp : Resp) : Report :=
  if resp.ret < 0 then .error resp.ret else .ok resp.ret (shown (resp.out ++ [0]))

def Program.first : Program → Child
  | .read => .call (.read SZ)
  | .write _ => .lseek

def Program.file : Program → List Byte
  | .read => []
  | .write file => file

def childStep {σ : Type*} (lk : Locked.Lock σ) (prog : Program) (s : Shared σ) (p : Nat)
    (c : Child) (env : Env) : Shared σ × (Child ⊕ Report) :=
  match c with
  | .lseek => ({ s with pos := 0 }, .inl .fetch)
  | .fetch => (s, .inl (.read s.pos))
  | .read pos =>
    if env.readable then
      let buf := (prog.file.drop pos).take SZ
      ({ s with pos := pos + buf.length }, .inl (.call (.write buf)))
    else (s, .inr .file)
  | .call call =>
    ({ s with drv := Locked.step lk s.drv (.invoke p call) }, .inl (.inside call))
  | .inside call =>
    let drv := Locked.step lk s.drv (.run p env.fate)
    match drv.session p, drv.history.getLast? with
    | none, some (.respond _ op resp) =>
      ({ s with drv, answers := s.answers ++ [(p, op, resp)] }, .inl (.print resp))
    | _, _ => ({ s with drv }, .inl (.inside call))
  | .print resp => (s, .inr (report resp))

def children {σ : Type*} (lk : Locked.Lock σ) (prog : Program) :
    Children (Shared σ) Child Env Report :=
  ⟨prog.first, childStep lk prog⟩

/-- A driver that no process is in. -/
structure Rest {σ : Type*} (lk : Locked.Lock σ) where
  drv : Locked.State σ Nat
  inv : Locked.Inv lk drv
  idle : ∀ p, drv.session p = none

/-- The program, run on a driver at rest. -/
def machine {σ : Type*} (lk : Locked.Lock σ) (prog : Program) (rest : Rest lk) :
    Machine (Family (Shared σ) Child Report) (FamilyAct Env) :=
  Family.machine (children lk prog) PROCESS_NR ⟨rest.drv, 0, []⟩

/-- A piece of the file as one `read` returns it. -/
def piece (file : List Byte) (j : Nat) : List Byte := (file.drop (j * SZ)).take SZ

/-- What a call of the program asks for. -/
def Program.Asks : Program → Call → Prop
  | .read, call => call = .read SZ
  | .write file, call => ∃ j, call = .write (piece file j)

/-- The offsets that one `read` after another gets to. -/
def Placed (file : List Byte) (pos : Nat) : Prop := (∃ j, pos = j * SZ) ∨ file.length ≤ pos

theorem Placed.piece {file : List Byte} {pos : Nat} (h : Placed file pos) :
    ∃ j, (file.drop pos).take SZ = piece file j := by
  rcases h with ⟨j, rfl⟩ | hend
  · exact ⟨j, rfl⟩
  · refine ⟨file.length, ?_⟩
    have hfar : file.length ≤ file.length * SZ := Nat.le_mul_of_pos_right _ (by decide)
    rw [Stress.piece, List.drop_eq_nil_of_le hend, List.drop_eq_nil_of_le hfar]

theorem Placed.next {file : List Byte} {pos : Nat} (h : Placed file pos) :
    Placed file (pos + ((file.drop pos).take SZ).length) := by
  rw [List.length_take, List.length_drop]
  by_cases hfull : SZ ≤ file.length - pos
  · rw [Nat.min_eq_left hfull]
    rcases h with ⟨j, rfl⟩ | hend
    · exact Or.inl ⟨j + 1, (Nat.succ_mul j SZ).symm⟩
    · exact Or.inr (Nat.le_add_right_of_le hend)
  · rw [Nat.min_eq_right (by omega)]
    exact Or.inr (by omega)

theorem fifoStep_read {q : List Byte} (hq : q.length ≤ SZ_512) (failed : Bool) :
    fifoStep q ⟨.read SZ, failed⟩ =
      if q = [] then (q, ⟨-eagain, []⟩) else if failed then (q, ⟨-eio, []⟩)
      else ([], ⟨q.length, q⟩) := by
  have h0 : (Call.read SZ).cnt ≠ 0 := by decide
  rw [fifoStep, if_neg h0]
  by_cases hnil : q = []
  · subst hnil
    rfl
  · have hsome : available q (.read SZ) = true := by simpa [available] using hnil
    rw [if_neg hnil, hsome, if_neg (by decide)]
    cases failed with
    | true => rfl
    | false =>
      have hall : q.length ≤ SZ := hq
      simp [fifoEffect, List.drop_eq_nil_of_le hall, List.take_of_length_le hall,
        Nat.min_eq_right hall]

/-- Calls that all ask for everything fail until one of them gets what is there, and then again. -/
theorem reads_take {q : List Byte} {l : List (Op × Resp)} (hq : q.length ≤ SZ_512)
    (hlegal : fifo.LegalFrom q l) (hops : ∀ e ∈ l, e.1.call = .read SZ) :
    (fifo.replay q l = q ∧ ∀ e ∈ l, e.2.ret < 0 ∧ (q ≠ [] → e.2.ret = -eio)) ∨
      (fifo.replay q l = [] ∧ q ≠ [] ∧ ∃ before op after,
        l = before ++ (op, ⟨q.length, q⟩) :: after ∧ ∀ e ∈ before ++ after, e.2.ret < 0) := by
  induction l using List.reverseRecOn with
  | nil => exact Or.inl ⟨rfl, by simp⟩
  | append_singleton l e ih =>
    obtain ⟨hl, he⟩ := (fifo.legalFrom_concat q l e).mp hlegal
    have hask := hops e (List.mem_append_right _ (List.mem_singleton_self e))
    obtain ⟨⟨call, failed⟩, resp⟩ := e
    obtain rfl : call = .read SZ := hask
    have hops' (e : Op × Resp) (h : e ∈ l) := hops e (List.mem_append_left _ h)
    rw [SeqSpec.replay_concat]
    show ((fifoStep (fifo.replay q l) ⟨.read SZ, failed⟩).1 = q ∧ _) ∨
      ((fifoStep (fifo.replay q l) ⟨.read SZ, failed⟩).1 = [] ∧ _)
    replace he : (fifoStep (fifo.replay q l) ⟨.read SZ, failed⟩).2 = resp := he
    have hio : (-eio : Int) < 0 := by decide
    have hagain : (-eagain : Int) < 0 := by decide
    rcases ih hl hops' with ⟨hsame, herrors⟩ | ⟨htaken, hne, before, op, after, rfl, herrors⟩
    · rw [hsame, fifoStep_read hq] at he ⊢
      by_cases hnil : q = []
      · rw [if_pos hnil] at he ⊢
        subst he
        left
        exact ⟨rfl, List.forall_mem_append.mpr
          ⟨herrors, List.forall_mem_singleton.mpr ⟨hagain, fun h => absurd hnil h⟩⟩⟩
      · rw [if_neg hnil] at he ⊢
        cases failed with
        | true =>
          rw [if_pos rfl] at he ⊢
          subst he
          left
          exact ⟨rfl, List.forall_mem_append.mpr
            ⟨herrors, List.forall_mem_singleton.mpr ⟨hio, fun _ => rfl⟩⟩⟩
        | false =>
          rw [if_neg Bool.false_ne_true] at he ⊢
          subst he
          refine Or.inr ⟨rfl, hnil, l, _, [], rfl, ?_⟩
          rw [List.append_nil]
          exact fun e hmem => (herrors e hmem).1
    · have hempty : ([] : List Byte).length ≤ SZ_512 := Nat.zero_le _
      rw [htaken, fifoStep_read hempty, if_pos rfl] at he ⊢
      subst he
      right
      refine ⟨rfl, hne, before, op, after ++ [(⟨.read SZ, failed⟩, ⟨-eagain, []⟩)], by simp, ?_⟩
      rw [← List.append_assoc]
      exact List.forall_mem_append.mpr ⟨herrors, List.forall_mem_singleton.mpr hagain⟩

theorem fifoStep_write {q : List Byte} (hq : q.length ≤ SZ_512) (buf : List Byte)
    (failed : Bool) :
    (∃ ret ≤ 0, fifoStep q ⟨.write buf, failed⟩ = (q, ⟨ret, []⟩)) ∨
      (buf ≠ [] ∧ q.length < SZ_512 ∧ fifoStep q ⟨.write buf, failed⟩ =
        ((q ++ buf).take SZ_512, ⟨(min buf.length (SZ_512 - q.length) : Nat), []⟩)) := by
  have hneg := (Call.write buf).refusal_neg
  rw [fifoStep]
  by_cases h0 : (Call.write buf).cnt = 0
  · exact Or.inl ⟨0, Int.le_refl 0, if_pos h0⟩
  rw [if_neg h0]
  by_cases ha : available q (.write buf) = false
  · exact Or.inl ⟨_, Int.le_of_lt hneg, if_pos ha⟩
  rw [if_neg ha]
  cases failed with
  | true => exact Or.inl ⟨-eio, by decide, if_pos rfl⟩
  | false =>
    rw [if_neg Bool.false_ne_true]
    have hne : buf ≠ [] := by
      intro hnil
      exact h0 (congrArg List.length hnil)
    have hroom : q.length ≠ SZ_512 := by
      intro hfull
      exact ha (by simp [available, hfull])
    right
    refine ⟨hne, by omega, ?_⟩
    rw [fifoEffect, List.take_append, List.take_of_length_le hq, BoundedFifo.admitted]

/-- Calls that write pieces of a file append one piece behind another, as far as there is room. -/
theorem writes_fill {q file : List Byte} {l : List (Op × Resp)} (hq : q.length ≤ SZ_512)
    (hlegal : fifo.LegalFrom q l) (hops : ∀ e ∈ l, ∃ j, e.1.call = .write (piece file j)) :
    ∃ js : List Nat, js.length = l.countP (fun e => 0 < e.2.ret) ∧
      (∀ j ∈ js, j * SZ < file.length) ∧
      fifo.replay q l = (q ++ js.flatMap (piece file)).take SZ_512 ∧
      (fifo.replay q l).length = q.length + (l.map fun e => e.2.ret.toNat).sum := by
  induction l using List.reverseRecOn with
  | nil => exact ⟨[], rfl, by simp, by simp [SeqSpec.replay, List.take_of_length_le hq], rfl⟩
  | append_singleton l e ih =>
    obtain ⟨hl, he⟩ := (fifo.legalFrom_concat q l e).mp hlegal
    obtain ⟨js, hcount, hin, hfill, hsum⟩ := ih hl fun e h => hops e (List.mem_append_left _ h)
    have hask := hops e (List.mem_append_right _ (List.mem_singleton_self e))
    obtain ⟨⟨call, failed⟩, resp⟩ := e
    obtain ⟨j, rfl⟩ : ∃ j, call = .write (piece file j) := hask
    rw [SeqSpec.replay_concat]
    show ∃ js : List Nat, _ ∧ _ ∧
      (fifoStep (fifo.replay q l) ⟨.write (piece file j), failed⟩).1 = _ ∧
      (fifoStep (fifo.replay q l) ⟨.write (piece file j), failed⟩).1.length = _
    replace he : (fifoStep (fifo.replay q l) ⟨.write (piece file j), failed⟩).2 = resp := he
    have hbound : (fifo.replay q l).length ≤ SZ_512 := by
      rw [hfill, List.length_take]
      exact Nat.min_le_left _ _
    rcases fifoStep_write hbound (piece file j) failed with ⟨ret, hret, hstep⟩ |
      ⟨hne, hroom, hstep⟩
    · rw [hstep] at he ⊢
      subst he
      refine ⟨js, ?_, hin, hfill, ?_⟩
      · rw [hcount, List.countP_append]
        simp [hret]
      · rw [hsum, List.map_append, List.sum_append]
        simp [hret]
    · rw [hstep] at he ⊢
      subst he
      have hlen : (q ++ js.flatMap (piece file)).length < SZ_512 := by
        rw [hfill, List.length_take] at hroom
        omega
      have hwhole : fifo.replay q l = q ++ js.flatMap (piece file) := by
        rw [hfill, List.take_of_length_le (Nat.le_of_lt hlen)]
      refine ⟨js ++ [j], ?_, ?_, ?_, ?_⟩
      · have hpos : 0 < (piece file j).length := List.length_pos_iff.mpr hne
        rw [List.length_append, hcount, List.countP_append, List.countP_singleton]
        have hret : (0 : Int) <
            (min (piece file j).length (SZ_512 - (fifo.replay q l).length) : Nat) := by
          omega
        simp only [hret, decide_true, if_true, List.length_singleton]
      · intro i hi
        rcases List.mem_append.mp hi with hold | hnew
        · exact hin i hold
        · obtain rfl := List.mem_singleton.mp hnew
          by_contra hfar
          exact hne (by rw [piece, List.drop_eq_nil_of_le (by omega), List.take_nil])
      · rw [hwhole, List.flatMap_append, List.flatMap_singleton, List.append_assoc]
      · rw [List.map_append, List.sum_append, ← Nat.add_assoc, ← hsum, List.length_take,
          List.length_append]
        simp
        omega

/-- Where a process of the program can be. -/
def Program.Reaches (prog : Program) : Child → Prop
  | .lseek => prog ≠ .read
  | .fetch => prog ≠ .read
  | .read pos => prog ≠ .read ∧ Placed prog.file pos
  | .call call => prog.Asks call
  | .inside call => prog.Asks call
  | .print _ => True

/-- The driver is in order and has the calls of exactly those processes that are in it; its answers
are those given to the processes, and what has been printed tells them. -/
structure Going {σ : Type*} (lk : Locked.Lock σ) (prog : Program) (base : List (Op × Resp))
    (s : Shared σ) (child : Nat → Option Child) (out : List (Nat × Report)) : Prop where
  inv : Locked.Inv lk s.drv
  log : (completions s.drv.history).map Completed.exchange = base ++ s.answers.map Prod.snd
  inside : ∀ p call, child p = some (.inside call) →
    ∃ c, s.drv.session p = some c ∧ c.fr.call = call
  outside : ∀ p c, s.drv.session p = some c → ∃ call, child p = some (.inside call)
  placed : Placed prog.file s.pos
  reaches : ∀ p c, child p = some c → prog.Reaches c
  asked : ∀ a ∈ s.answers, prog.Asks a.2.1.call
  once : (s.answers.map Prod.fst).Nodup
  answered : ∀ p op resp, (p, op, resp) ∈ s.answers →
    child p = some (.print resp) ∨ (child p = none ∧ (p, report resp) ∈ out)
  printing : ∀ p resp, child p = some (.print resp) → ∃ op, (p, op, resp) ∈ s.answers
  told : ∀ e ∈ out, (e.2 = .file ∧ prog ≠ .read) ∨
    ∃ op resp, (e.1, op, resp) ∈ s.answers ∧ e.2 = report resp

section Steps

variable {σ : Type*} {lk : Locked.Lock σ} {prog : Program} {base : List (Op × Resp)}
variable {s : Shared σ} {child : Nat → Option Child} {out : List (Nat × Report)} {p : Nat}

theorem Going.unanswered (h : Going lk prog base s child out) {c : Child} (hc : child p = some c)
    (hne : ∀ resp, c ≠ .print resp) : p ∉ s.answers.map Prod.fst := by
  intro hmem
  obtain ⟨⟨p', op, resp⟩, ha, rfl⟩ := List.mem_map.mp hmem
  rcases h.answered _ op resp ha with hprint | ⟨hnone, -⟩
  · exact hne resp (Option.some.inj (hc.symm.trans hprint))
  · exact Option.some_ne_none c (hc.symm.trans hnone)

theorem Going.idle (h : Going lk prog base s child out)
    (hold : ∀ call, child p ≠ some (.inside call)) : s.drv.session p = none := by
  cases hs : s.drv.session p with
  | none => rfl
  | some c =>
    obtain ⟨call, hcall⟩ := h.outside p c hs
    exact absurd hcall (hold call)

/-- A process that the driver does not know yet moves on by itself. -/
theorem Going.move (h : Going lk prog base s child out) {c : Child} (pos : Nat)
    (hpos : Placed prog.file pos) (hold : ∀ call, child p ≠ some (.inside call))
    (hnot : p ∉ s.answers.map Prod.fst) (hinside : ∀ call, c ≠ .inside call)
    (hprint : ∀ resp, c ≠ .print resp) (hreaches : prog.Reaches c) :
    Going lk prog base { s with pos } (Function.update child p (some c)) out where
  inv := h.inv
  log := h.log
  inside := by
    intro q call hq
    rcases update_eq_some hq with ⟨-, hnew⟩ | ⟨-, hq⟩
    · exact absurd (Option.some.inj hnew) (hinside call)
    · exact h.inside q call hq
  outside := by
    intro q d hq
    obtain ⟨call, hcall⟩ := h.outside q d hq
    refine ⟨call, ?_⟩
    rw [Function.update_of_ne]
    · exact hcall
    · rintro rfl
      exact hold call hcall
  placed := hpos
  reaches := by
    intro q d hq
    rcases update_eq_some hq with ⟨-, hnew⟩ | ⟨-, hq⟩
    · exact Option.some.inj hnew ▸ hreaches
    · exact h.reaches q d hq
  asked := h.asked
  once := h.once
  answered := by
    intro q op resp ha
    have hne : q ≠ p := by
      rintro rfl
      exact hnot (List.mem_map_of_mem ha)
    rw [Function.update_of_ne hne]
    exact h.answered q op resp ha
  printing := by
    intro q resp hq
    rcases update_eq_some hq with ⟨-, hnew⟩ | ⟨-, hq⟩
    · exact absurd (Option.some.inj hnew) (hprint resp)
    · exact h.printing q resp hq
  told := h.told

/-- A process ends with a line that tells of its answer, if it has one. -/
theorem Going.leave (h : Going lk prog base s child out) {r : Report}
    (hold : ∀ call, child p ≠ some (.inside call))
    (hr : ∀ op resp, (p, op, resp) ∈ s.answers → r = report resp)
    (hfile : (r = .file ∧ prog ≠ .read) ∨
      ∃ op resp, (p, op, resp) ∈ s.answers ∧ r = report resp) :
    Going lk prog base s (Function.update child p none) (out ++ [(p, r)]) where
  inv := h.inv
  log := h.log
  inside := by
    intro q call hq
    rcases update_eq_some hq with ⟨-, hnew⟩ | ⟨-, hq⟩
    · exact absurd hnew.symm (Option.some_ne_none _)
    · exact h.inside q call hq
  outside := by
    intro q d hq
    obtain ⟨call, hcall⟩ := h.outside q d hq
    refine ⟨call, ?_⟩
    rw [Function.update_of_ne]
    · exact hcall
    · rintro rfl
      exact hold call hcall
  placed := h.placed
  reaches := by
    intro q d hq
    rcases update_eq_some hq with ⟨-, hnew⟩ | ⟨-, hq⟩
    · exact absurd hnew.symm (Option.some_ne_none _)
    · exact h.reaches q d hq
  asked := h.asked
  once := h.once
  answered := by
    intro q op resp ha
    by_cases hq : q = p
    · subst hq
      refine Or.inr ⟨Function.update_self .., ?_⟩
      rw [hr op resp ha]
      exact List.mem_append_right _ (List.mem_singleton_self _)
    · rw [Function.update_of_ne hq]
      rcases h.answered q op resp ha with hprint | ⟨hnone, hout⟩
      · exact Or.inl hprint
      · exact Or.inr ⟨hnone, List.mem_append_left _ hout⟩
  printing := by
    intro q resp hq
    rcases update_eq_some hq with ⟨-, hnew⟩ | ⟨-, hq⟩
    · exact absurd hnew.symm (Option.some_ne_none _)
    · exact h.printing q resp hq
  told := by
    intro e he
    rcases List.mem_append.mp he with hin | hnew
    · exact h.told e hin
    · obtain rfl := List.mem_singleton.mp hnew
      exact hfile

theorem Going.enter (h : Going lk prog base s child out) {call : Call}
    (hc : child p = some (.call call)) :
    Going lk prog base { s with drv := Locked.step lk s.drv (.invoke p call) }
      (Function.update child p (some (.inside call))) out := by
  have hidle : s.drv.session p = none := h.idle (by simp [hc])
  have hnot := h.unanswered hc (by simp)
  have hinv := Locked.step_inv h.inv (.invoke p call)
  have hstep : Locked.step lk s.drv (.invoke p call) = Locked.State.goto
      { s.drv with
        history := s.drv.history ++ [.invoke s.drv.nextId call], nextId := s.drv.nextId + 1 }
      p (.enter s.drv.nextId call) := by
    simp only [Locked.step, hidle]
  rw [hstep] at hinv ⊢
  refine ⟨hinv, ?_, ?_, ?_, h.placed, ?_, h.asked, h.once, ?_, ?_, h.told⟩
  · rw [← h.log]
    exact congrArg _ (completions_invoke _ _ _)
  · intro q call' hq
    rcases update_eq_some hq with ⟨rfl, hnew⟩ | ⟨hne, hq⟩
    · obtain rfl := Child.inside.inj (Option.some.inj hnew)
      exact ⟨_, Function.update_self .., rfl⟩
    · obtain ⟨d, hd, hcall⟩ := h.inside q call' hq
      exact ⟨d, (Function.update_of_ne hne ..).trans hd, hcall⟩
  · intro q d hq
    rcases update_eq_some hq with ⟨rfl, -⟩ | ⟨hne, hq⟩
    · exact ⟨call, Function.update_self ..⟩
    · obtain ⟨call', hcall⟩ := h.outside q d hq
      exact ⟨call', (Function.update_of_ne hne ..).trans hcall⟩
  · intro q d hq
    rcases update_eq_some hq with ⟨-, hnew⟩ | ⟨-, hq⟩
    · have hasks : prog.Reaches (.inside call) := h.reaches p (.call call) hc
      exact Option.some.inj hnew ▸ hasks
    · exact h.reaches q d hq
  · intro q op resp ha
    have hne : q ≠ p := by
      rintro rfl
      exact hnot (List.mem_map_of_mem ha)
    rw [Function.update_of_ne hne]
    exact h.answered q op resp ha
  · intro q resp hq
    rcases update_eq_some hq with ⟨-, hnew⟩ | ⟨-, hq⟩
    · simp at hnew
    · exact h.printing q resp hq

/-- Inside the driver a process goes on, or gets its answer. -/
theorem inside_cases (h : Going lk prog base s child out) {call : Call}
    (hc : child p = some (.inside call)) (env : Env) :
    (∃ c, c.fr.call = call ∧
      (Locked.step lk s.drv (.run p env.fate)).session =
        Function.update s.drv.session p (some c) ∧
      (Locked.step lk s.drv (.run p env.fate)).history = s.drv.history ∧
      childStep lk prog s p (.inside call) env =
        ({ s with drv := Locked.step lk s.drv (.run p env.fate) }, .inl (.inside call))) ∨
    (∃ id op resp, op.call = call ∧
      (Locked.step lk s.drv (.run p env.fate)).session = Function.update s.drv.session p none ∧
      (Locked.step lk s.drv (.run p env.fate)).history =
        s.drv.history ++ [.respond id op resp] ∧
      childStep lk prog s p (.inside call) env =
        (⟨Locked.step lk s.drv (.run p env.fate), s.pos, s.answers ++ [(p, op, resp)]⟩,
          .inl (.print resp))) := by
  obtain ⟨c, hs, rfl⟩ := h.inside p call hc
  have hstep : Locked.step lk s.drv (.run p env.fate) = Locked.advance lk s.drv p c env.fate := by
    simp only [Locked.step, hs]
  rcases Locked.advance_cases lk env.fate hs with ⟨c', hcall, hsession, hhistory⟩ |
    ⟨op, resp, hcall, hsession, hhistory⟩
  · rw [← hstep] at hsession hhistory
    refine Or.inl ⟨c', hcall, hsession, hhistory, ?_⟩
    simp [childStep, hsession]
  · rw [← hstep] at hsession hhistory
    refine Or.inr ⟨c.id, op, resp, hcall, hsession, hhistory, ?_⟩
    simp [childStep, hsession, hhistory]

theorem Going.stay (h : Going lk prog base s child out) {call : Call}
    (hc : child p = some (.inside call)) {drv : Locked.State σ Nat} {c : Locked.Session}
    (hinv : Locked.Inv lk drv) (hcall : c.fr.call = call)
    (hsession : drv.session = Function.update s.drv.session p (some c))
    (hhistory : drv.history = s.drv.history) :
    Going lk prog base { s with drv } (Function.update child p (some (.inside call))) out := by
  have hsame : Function.update child p (some (.inside call)) = child := by
    rw [← hc]
    exact Function.update_eq_self p child
  rw [hsame]
  refine ⟨hinv, ?_, ?_, ?_, h.placed, h.reaches, h.asked, h.once, h.answered, h.printing, h.told⟩
  · rw [← h.log, ← hhistory]
  · intro q call' hq
    by_cases hqp : q = p
    · subst hqp
      obtain rfl := Child.inside.inj (Option.some.inj (hc.symm.trans hq))
      refine ⟨c, ?_, hcall⟩
      show drv.session q = some c
      rw [hsession, Function.update_self]
    · obtain ⟨d, hd, hcall'⟩ := h.inside q call' hq
      refine ⟨d, ?_, hcall'⟩
      show drv.session q = some d
      rw [hsession, Function.update_of_ne hqp, hd]
  · intro q d hq
    have hq' : drv.session q = some d := hq
    rw [hsession] at hq'
    rcases update_eq_some hq' with ⟨rfl, -⟩ | ⟨-, hq'⟩
    · exact ⟨call, hc⟩
    · exact h.outside q d hq'

theorem Going.answer (h : Going lk prog base s child out) {call : Call}
    (hc : child p = some (.inside call)) {drv : Locked.State σ Nat} {id : Nat} {op : Op}
    {resp : Resp} (hinv : Locked.Inv lk drv) (hcall : op.call = call)
    (hsession : drv.session = Function.update s.drv.session p none)
    (hhistory : drv.history = s.drv.history ++ [.respond id op resp]) :
    Going lk prog base ⟨drv, s.pos, s.answers ++ [(p, op, resp)]⟩
      (Function.update child p (some (.print resp))) out := by
  have hnot := h.unanswered hc (by simp)
  refine ⟨hinv, ?_, ?_, ?_, h.placed, ?_, ?_, ?_, ?_, ?_, ?_⟩
  · show (completions drv.history).map Completed.exchange = _
    rw [hhistory, completions_respond, List.map_append, h.log, List.map_append, List.append_assoc]
    rfl
  · intro q call' hq
    rcases update_eq_some hq with ⟨-, hnew⟩ | ⟨hne, hq⟩
    · simp at hnew
    · obtain ⟨d, hd, hcall'⟩ := h.inside q call' hq
      refine ⟨d, ?_, hcall'⟩
      show drv.session q = some d
      rw [hsession, Function.update_of_ne hne, hd]
  · intro q d hq
    have hq' : drv.session q = some d := hq
    rw [hsession] at hq'
    rcases update_eq_some hq' with ⟨-, hnew⟩ | ⟨hne, hq'⟩
    · exact absurd hnew.symm (Option.some_ne_none d)
    · obtain ⟨call', hcall'⟩ := h.outside q d hq'
      exact ⟨call', (Function.update_of_ne hne ..).trans hcall'⟩
  · intro q d hq
    rcases update_eq_some hq with ⟨-, hnew⟩ | ⟨-, hq⟩
    · obtain rfl := Option.some.inj hnew
      trivial
    · exact h.reaches q d hq
  · intro a ha
    rcases List.mem_append.mp ha with hold | hnew
    · exact h.asked a hold
    · rw [List.mem_singleton.mp hnew]
      show prog.Asks op.call
      rw [hcall]
      exact h.reaches p (.inside call) hc
  · rw [List.map_append]
    apply List.nodup_append.mpr
    refine ⟨h.once, List.nodup_singleton p, ?_⟩
    intro a ha b hb hab
    obtain rfl : b = p := List.mem_singleton.mp hb
    exact hnot (hab ▸ ha)
  · intro q op' resp' ha
    rcases List.mem_append.mp ha with hold | hnew
    · have hne : q ≠ p := by
        rintro rfl
        exact hnot (List.mem_map_of_mem hold)
      rw [Function.update_of_ne hne]
      exact h.answered q op' resp' hold
    · obtain ⟨rfl, rfl, rfl⟩ : q = p ∧ op' = op ∧ resp' = resp := by simpa using hnew
      exact Or.inl (Function.update_self ..)
  · intro q resp' hq
    rcases update_eq_some hq with ⟨rfl, hnew⟩ | ⟨-, hq⟩
    · obtain rfl := Child.print.inj (Option.some.inj hnew)
      exact ⟨op, List.mem_append_right _ (List.mem_singleton_self _)⟩
    · obtain ⟨op', ha⟩ := h.printing q resp' hq
      exact ⟨op', List.mem_append_left _ ha⟩
  · intro e he
    rcases h.told e he with hfile | ⟨op', resp', ha, hr⟩
    · exact Or.inl hfile
    · exact Or.inr ⟨op', resp', List.mem_append_left _ ha, hr⟩

theorem keeps (lk : Locked.Lock σ) (prog : Program) (base : List (Op × Resp)) :
    Family.Keeps (children lk prog) (Going lk prog base) where
  fork s child out p h hnone hnot := by
    have hanswers : p ∉ s.answers.map Prod.fst := by
      intro hmem
      obtain ⟨⟨p', op, resp⟩, ha, rfl⟩ := List.mem_map.mp hmem
      rcases h.answered _ op resp ha with hprint | ⟨-, hout⟩
      · exact Option.some_ne_none _ (hprint.symm.trans hnone)
      · exact hnot (List.mem_map_of_mem hout)
    cases prog with
    | read =>
      exact h.move s.pos h.placed (by simp [hnone]) hanswers (by simp [children, Program.first])
        (by simp [children, Program.first]) rfl
    | write file =>
      exact h.move s.pos h.placed (by simp [hnone]) hanswers (by simp [children, Program.first])
        (by simp [children, Program.first]) (by simp [children, Program.first, Program.Reaches])
  goes s child out p c env s' c' h hc hstep := by
    have hreaches := h.reaches p c hc
    simp only [children] at hstep
    cases c with
    | lseek =>
      obtain ⟨rfl, rfl⟩ : { s with pos := 0 } = s' ∧ Child.fetch = c' := by
        simpa [childStep] using hstep
      exact h.move 0 (Or.inl ⟨0, (Nat.zero_mul SZ).symm⟩) (by simp [hc])
        (h.unanswered hc (by simp)) (by simp) (by simp) hreaches
    | fetch =>
      obtain ⟨rfl, rfl⟩ : s = s' ∧ Child.read s.pos = c' := by simpa [childStep] using hstep
      exact h.move s.pos h.placed (by simp [hc]) (h.unanswered hc (by simp)) (by simp) (by simp)
        ⟨hreaches, h.placed⟩
    | read pos =>
      obtain ⟨hwrites, hpos⟩ := hreaches
      cases hreadable : env.readable with
      | false => simp [childStep, hreadable] at hstep
      | true =>
        simp only [childStep, hreadable, if_true, Prod.mk.injEq, Sum.inl.injEq] at hstep
        obtain ⟨rfl, rfl⟩ := hstep
        refine h.move _ hpos.next (by simp [hc]) (h.unanswered hc (by simp)) (by simp) (by simp) ?_
        cases prog with
        | read => exact absurd rfl hwrites
        | write file =>
          obtain ⟨j, hj⟩ := hpos.piece
          exact ⟨j, congrArg Call.write hj⟩
    | call call =>
      simp only [childStep, Prod.mk.injEq, Sum.inl.injEq] at hstep
      obtain ⟨rfl, rfl⟩ := hstep
      exact h.enter hc
    | inside call =>
      have hinv := Locked.step_inv h.inv (.run p env.fate)
      rcases inside_cases h hc env with ⟨d, hcall, hsession, hhistory, hchild⟩ |
        ⟨id, op, resp, hcall, hsession, hhistory, hchild⟩
      · obtain ⟨rfl, hnext⟩ := Prod.mk.inj (hchild.symm.trans hstep)
        obtain rfl := Sum.inl.inj hnext
        exact h.stay hc hinv hcall hsession hhistory
      · obtain ⟨rfl, hnext⟩ := Prod.mk.inj (hchild.symm.trans hstep)
        obtain rfl := Sum.inl.inj hnext
        exact h.answer hc hinv hcall hsession hhistory
    | print resp => simp [childStep] at hstep
  ends s child out p c env s' r h hc hstep := by
    simp only [children] at hstep
    cases c with
    | lseek => simp [childStep] at hstep
    | fetch => simp [childStep] at hstep
    | read pos =>
      cases hreadable : env.readable with
      | true => simp [childStep, hreadable] at hstep
      | false =>
        obtain ⟨rfl, rfl⟩ : s = s' ∧ Report.file = r := by
          simpa [childStep, hreadable] using hstep
        refine h.leave (by simp [hc]) ?_ (Or.inl ⟨rfl, (h.reaches p _ hc).1⟩)
        intro op resp ha
        exact absurd (List.mem_map_of_mem ha) (h.unanswered hc (by simp))
    | call call => simp [childStep] at hstep
    | inside call =>
      rcases inside_cases h hc env with ⟨d, -, -, -, hchild⟩ | ⟨id, op, resp, -, -, -, hchild⟩
      · exact absurd (hchild.symm.trans hstep) (by simp)
      · exact absurd (hchild.symm.trans hstep) (by simp)
    | print resp =>
      obtain ⟨rfl, rfl⟩ : s = s' ∧ report resp = r := by simpa [childStep] using hstep
      obtain ⟨op, ha⟩ := h.printing p resp hc
      refine h.leave (by simp [hc]) ?_ (Or.inr ⟨op, resp, ha, rfl⟩)
      intro op' resp' ha'
      rcases h.answered p op' resp' ha' with hprint | ⟨hnone, -⟩
      · rw [Child.print.inj (Option.some.inj (hc.symm.trans hprint))]
      · exact absurd (hc.symm.trans hnone) (Option.some_ne_none _)

/-- How far a process is from its end. -/
def rank (s : Shared σ) (p : Nat) : Child → Nat
  | .lseek => 13
  | .fetch => 12
  | .read _ => 11
  | .call _ => 10
  | .inside _ => ((s.drv.session p).map fun c => c.pc.rank).getD 0
  | .print _ => 0

theorem rank_congr {s s' : Shared σ} {q : Nat} (h : s'.drv.session q = s.drv.session q)
    (c : Child) : rank s' q c = rank s q c := by
  cases c <;> simp only [rank, h]

/-- A process that does not wait for the lock gets nearer to its end. -/
theorem Going.nearer_of (h : Going lk prog base s child out) {c : Child} (hc : child p = some c)
    (hlock : ∀ ses, s.drv.session p = some ses → ses.pc = .lock → s.drv.lock = lk.free) :
    Family.Nearer (children lk prog) rank s child := by
  refine ⟨p, c, ⟨.success, true⟩, hc, ?_⟩
  simp only [children]
  cases c with
  | lseek => exact ⟨fun q d _ _ => Nat.le_of_eq (rank_congr rfl d), by simp [childStep, rank]⟩
  | fetch => exact ⟨fun q d _ _ => Nat.le_of_eq (rank_congr rfl d), by simp [childStep, rank]⟩
  | read pos => exact ⟨fun q d _ _ => Nat.le_of_eq (rank_congr rfl d), by simp [childStep, rank]⟩
  | print resp => exact ⟨fun q d _ _ => Nat.le_of_eq (rank_congr rfl d), by simp [childStep]⟩
  | call call =>
    have hidle : s.drv.session p = none := h.idle (by simp [hc])
    have hsession : (Locked.step lk s.drv (.invoke p call)).session =
        Function.update s.drv.session p (some (.enter s.drv.nextId call)) := by
      simp only [Locked.step, hidle]
      rfl
    constructor
    · intro q d hq _
      exact Nat.le_of_eq (rank_congr (by simp [childStep, hsession, hq]) d)
    · intro c' hnext
      obtain rfl : Child.inside call = c' := by simpa [childStep] using hnext
      simp [childStep, rank, hsession, Locked.Session.enter, Locked.Pc.rank]
  | inside call =>
    obtain ⟨ses, hs, -⟩ := h.inside p call hc
    have hlower := Locked.advance_lower h.inv hs (hlock ses hs) .success
    have hstep : Locked.step lk s.drv (.run p .success) =
        Locked.advance lk s.drv p ses .success := by simp only [Locked.step, hs]
    rw [← hstep] at hlower
    have hrank : rank s p (.inside call) = ses.pc.rank := by simp [rank, hs]
    have hpos : 0 < ses.pc.rank := by
      cases hpc : ses.pc with
      | body pc => cases pc <;> decide
      | _ => decide
    rcases inside_cases h hc ⟨.success, true⟩ with ⟨d, -, hsession, -, hchild⟩ |
      ⟨id, op, resp, -, hsession, -, hchild⟩
    · rw [hchild]
      have hself := hlower d (by rw [hsession, Function.update_self])
      constructor
      · intro q e hq _
        exact Nat.le_of_eq (rank_congr (by simp [hsession, hq]) e)
      · intro c' hnext
        obtain rfl := Sum.inl.inj hnext
        rw [hrank]
        simpa [rank, hsession] using hself
    · rw [hchild]
      constructor
      · intro q e hq _
        exact Nat.le_of_eq (rank_congr (by simp [hsession, hq]) e)
      · intro c' hnext
        obtain rfl := Sum.inl.inj hnext
        rw [hrank]
        exact hpos

/-- The holder of the lock, or any process while it is free, gets nearer to its end. -/
theorem Going.nearer (h : Going lk prog base s child out) (halive : ∃ p, child p ≠ none) :
    Family.Nearer (children lk prog) rank s child := by
  rcases h.inv.owned with ⟨hfree, -⟩ | ⟨-, o, ses, ho, hcrit, -⟩
  · obtain ⟨p, hp⟩ := halive
    obtain ⟨c, hc⟩ := Option.ne_none_iff_exists'.mp hp
    exact h.nearer_of hc fun _ _ _ => hfree
  · obtain ⟨call, hcall⟩ := h.outside o ses ho
    apply h.nearer_of hcall
    intro ses' hs' hpc
    obtain rfl := Option.some.inj (ho.symm.trans hs')
    simp [Locked.Session.critical, hpc] at hcrit

/-- What the driver has answered before the program is started. -/
def Rest.past (rest : Rest lk) : List (Op × Resp) :=
  (completions rest.drv.history).map Completed.exchange

theorem Rest.contents_eq (rest : Rest lk) :
    rest.drv.dev.contents = fifo.replay [] rest.past :=
  rest.inv.owned.of_free (rest.inv.serves.idle rest.idle)

theorem Rest.going (rest : Rest lk) (prog : Program) :
    Going lk prog rest.past ⟨rest.drv, 0, []⟩ (fun _ => none) [] where
  inv := rest.inv
  log := (List.append_nil _).symm
  inside _ _ h := absurd h.symm (Option.some_ne_none _)
  outside p c h := absurd (h.symm.trans (rest.idle p)) (Option.some_ne_none c)
  placed := Or.inl ⟨0, (Nat.zero_mul SZ).symm⟩
  reaches _ _ h := absurd h.symm (Option.some_ne_none _)
  asked _ h := absurd h List.not_mem_nil
  once := List.nodup_nil
  answered _ _ _ h := absurd h List.not_mem_nil
  printing _ _ h := absurd h.symm (Option.some_ne_none _)
  told _ h := absurd h List.not_mem_nil

theorem run_going (prog : Program) (rest : Rest lk) (acts : List (FamilyAct Env)) :
    let s := (machine lk prog rest).run acts
    Going lk prog rest.past s.shared s.child s.out :=
  (keeps lk prog rest.past).run (rest.going prog) acts

/-- The program gets to its end from wherever it is. -/
theorem can_return (prog : Program) (rest : Rest lk) (acts : List (FamilyAct Env)) :
    ∃ more, (∀ a ∈ more, a ≠ .parent true) ∧
      ((machine lk prog rest).run (acts ++ more)).parent = .returned :=
  Family.can_return (keeps lk prog rest.past) rank (fun _ _ _ h => h.nearer) (rest.going prog) acts

/-- How a program leaves the driver, and what its processes have been answered. -/
structure Ended (prog : Program) (rest : Rest lk) (s : Family (Shared σ) Child Report) : Prop where
  reported : (s.out.map Prod.fst).Perm (List.range s.forked)
  all : s.forks = true → s.forked = PROCESS_NR
  atRest : ∃ after : Rest lk, after.drv = s.shared.drv
  legal : fifo.LegalFrom rest.drv.dev.contents (s.shared.answers.map Prod.snd)
  contents : s.shared.drv.dev.contents =
    fifo.replay rest.drv.dev.contents (s.shared.answers.map Prod.snd)
  bounded : rest.drv.dev.contents.length ≤ SZ_512
  answered : ∀ p op resp, (p, op, resp) ∈ s.shared.answers → (p, report resp) ∈ s.out

theorem run_ended {rest : Rest lk} {acts : List (FamilyAct Env)}
    (hreturned : ((machine lk prog rest).run acts).parent = .returned) :
    Ended prog rest ((machine lk prog rest).run acts) := by
  have hgoing := run_going prog rest acts
  have htidy : ((machine lk prog rest).run acts).Tidy PROCESS_NR := Family.run_tidy _ acts
  generalize (machine lk prog rest).run acts = s at hgoing htidy hreturned
  obtain ⟨hreported, hall, hnone⟩ := htidy.all_reported hreturned
  have hidle (p : Nat) : s.shared.drv.session p = none := hgoing.idle (by simp [hnone p])
  have hlegal := hgoing.inv.legal
  have hcontents : s.shared.drv.dev.contents = Locked.fifoOf s.shared.drv.history :=
    hgoing.inv.owned.of_free (hgoing.inv.serves.idle hidle)
  rw [Locked.fifoOf, hgoing.log, SeqSpec.replay_append, ← rest.contents_eq] at hcontents
  rw [hgoing.log, SeqSpec.Legal, SeqSpec.legalFrom_append] at hlegal
  refine ⟨hreported, hall, ⟨⟨s.shared.drv, hgoing.inv, hidle⟩, rfl⟩, ?_, hcontents, ?_, ?_⟩
  · rw [rest.contents_eq]
    exact hlegal.2
  · rw [Kbuf.contents_length rest.inv.bounded]
    exact rest.inv.bounded
  · intro p op resp ha
    rcases hgoing.answered p op resp ha with hprint | ⟨-, hout⟩
    · exact absurd (hprint.symm.trans (hnone p)) (Option.some_ne_none _)
    · exact hout

theorem report_error {resp : Resp} (h : resp.ret < 0) : report resp = .error resp.ret := if_pos h

/-- Any interleaving of the processes that `read.c` forks: the program can always come to its end,
where each process has printed one line and the driver is at rest. Either all calls have failed and
the device is as before, or one process has got everything that was in it, of which its line shows
what is in front of the first NUL, and the device is empty, and all other calls have failed. -/
theorem readers_take_once (lk : Locked.Lock σ) (rest : Rest lk) (acts : List (FamilyAct Env)) :
    let q := rest.drv.dev.contents
    let s := (machine lk .read rest).run acts
    (∃ more, (∀ a ∈ more, a ≠ .parent true) ∧
      ((machine lk .read rest).run (acts ++ more)).parent = .returned) ∧
    (s.parent = .returned →
      (s.out.map Prod.fst).Perm (List.range s.forked) ∧ (s.forks = true → s.forked = PROCESS_NR) ∧
      (∃ after : Rest lk, after.drv = s.shared.drv) ∧
      ((s.shared.drv.dev.contents = q ∧
          ∀ e ∈ s.out, ∃ ret < 0, e.2 = .error ret ∧ (q ≠ [] → ret = -eio)) ∨
        (s.shared.drv.dev.contents = [] ∧ q ≠ [] ∧ (0 ∉ q → shown q = q) ∧
          ∃ p, (p, .ok q.length (shown q)) ∈ s.out ∧
            ∀ e ∈ s.out, e.1 ≠ p → ∃ ret < 0, e.2 = .error ret))) := by
  intro q s
  refine ⟨can_return .read rest acts, fun hreturned => ?_⟩
  have hend : Ended .read rest s := run_ended hreturned
  have hgoing := run_going .read rest acts
  have htold (e : Nat × Report) (he : e ∈ s.out) :
      ∃ op resp, (e.1, op, resp) ∈ s.shared.answers ∧ e.2 = report resp :=
    (hgoing.told e he).resolve_left fun h => h.2 rfl
  have hops (e : Op × Resp) (he : e ∈ s.shared.answers.map Prod.snd) : e.1.call = .read SZ := by
    obtain ⟨a, ha, rfl⟩ := List.mem_map.mp he
    exact hgoing.asked a ha
  refine ⟨hend.reported, hend.all, hend.atRest, ?_⟩
  rcases reads_take hend.bounded hend.legal hops with ⟨hsame, herrors⟩ |
    ⟨hempty, hne, before, op, after, hsplit, herrors⟩
  · refine Or.inl ⟨hend.contents.trans hsame, ?_⟩
    intro e he
    obtain ⟨op, resp, ha, hr⟩ := htold e he
    obtain ⟨hneg, hio⟩ := herrors (op, resp) (List.mem_map_of_mem ha)
    exact ⟨resp.ret, hneg, hr.trans (report_error hneg), hio⟩
  · obtain ⟨first, last, hanswers, hfirst, hlast⟩ := List.map_eq_append_iff.mp hsplit
    obtain ⟨⟨p, op', resp⟩, more, rfl, hwin, hmore⟩ := List.map_eq_cons_iff.mp hlast
    obtain ⟨rfl, rfl⟩ := Prod.mk.inj hwin
    refine Or.inr ⟨hend.contents.trans hempty, hne, shown_of_no_nul, p, ?_, ?_⟩
    · have hmem : (p, op', ⟨q.length, q⟩) ∈ s.shared.answers := by
        rw [hanswers]
        exact List.mem_append_right _ List.mem_cons_self
      have hnonneg : ¬ (q.length : Int) < 0 := Int.not_lt.mpr (Int.natCast_nonneg _)
      have hline : report ⟨q.length, q⟩ = .ok q.length (shown q) := by
        have hshown := CStr.shown_terminated q []
        rw [List.append_nil] at hshown
        rw [report, if_neg hnonneg, hshown]
      rw [← hline]
      exact hend.answered p op' _ hmem
    · intro e he hother
      obtain ⟨op'', resp, ha, hr⟩ := htold e he
      have hneg : resp.ret < 0 := by
        apply herrors (op'', resp)
        rw [hanswers] at ha
        rcases List.mem_append.mp ha with hin | hin
        · exact List.mem_append_left _ (hfirst ▸ List.mem_map_of_mem hin)
        · rcases List.mem_cons.mp hin with heq | hin
          · exact absurd (congrArg Prod.fst heq) hother
          · exact List.mem_append_right _ (hmore ▸ List.mem_map_of_mem hin)
      exact ⟨resp.ret, hneg, hr.trans (report_error hneg)⟩

/-- The bytes that a process tells of. -/
def Report.bytes : Report → Nat
  | .ok num _ => num.toNat
  | _ => 0

theorem file_bytes : Report.file.bytes = 0 := rfl

theorem report_bytes (resp : Resp) : (report resp).bytes = resp.ret.toNat := by
  rw [report]
  split
  case isTrue hneg => exact (Int.toNat_of_nonpos (Int.le_of_lt hneg)).symm
  case isFalse => rfl

/-- Apart from the processes that could not read the file, the lines are those of the answers. -/
theorem Ended.lines {prog : Program} {rest : Rest lk} {s : Family (Shared σ) Child Report}
    (h : Ended prog rest s) (hgoing : Going lk prog rest.past s.shared s.child s.out) :
    (s.out.filter fun e => e.2 ≠ .file).Perm
      (s.shared.answers.map fun a => (a.1, report a.2.2)) := by
  have hout : s.out.Nodup := (h.reported.nodup_iff.mpr List.nodup_range).of_map Prod.fst
  have hanswers : (s.shared.answers.map fun a => (a.1, report a.2.2)).Nodup := by
    apply List.Nodup.of_map Prod.fst
    rw [List.map_map]
    exact hgoing.once
  apply (List.perm_ext_iff_of_nodup (hout.filter _) hanswers).mpr
  intro e
  rw [List.mem_filter, List.mem_map]
  constructor
  · rintro ⟨he, hne⟩
    rcases hgoing.told e he with ⟨hfile, -⟩ | ⟨op, resp, ha, hr⟩
    · simp [hfile] at hne
    · exact ⟨_, ha, Prod.ext rfl hr.symm⟩
  · rintro ⟨⟨p, op, resp⟩, ha, rfl⟩
    refine ⟨h.answered p op resp ha, ?_⟩
    rw [report]
    split <;> simp

theorem sum_filter_file (out : List (Nat × Report)) :
    (out.map fun e => e.2.bytes).sum =
      ((out.filter fun e => e.2 ≠ .file).map fun e => e.2.bytes).sum := by
  induction out with
  | nil => rfl
  | cons e out ih =>
    by_cases hfile : e.2 = .file
    · simpa [hfile, file_bytes] using ih
    · simp [hfile, ih]

theorem countP_filter_file (out : List (Nat × Report)) :
    (out.countP fun e => 0 < e.2.bytes) =
      (out.filter fun e => e.2 ≠ .file).countP fun e => 0 < e.2.bytes := by
  induction out with
  | nil => rfl
  | cons e out ih =>
    by_cases hfile : e.2 = .file
    · simpa [hfile, file_bytes] using ih
    · simp [hfile, List.countP_cons, ih]

/-- Any interleaving of the processes that `write.c` forks, which share the offset of the file: the
program can always come to its end, where each process has printed one line and the driver is at
rest. Behind what was in the device there is one piece of the file for each process that tells of
bytes, as far as there is room, and their lines tell of as many bytes as have been added. Of a file
that fits into the device each piece is the whole of it. -/
theorem writers_append_pieces (lk : Locked.Lock σ) (file : List Byte) (rest : Rest lk)
    (acts : List (FamilyAct Env)) :
    let q := rest.drv.dev.contents
    let s := (machine lk (.write file) rest).run acts
    (∃ more, (∀ a ∈ more, a ≠ .parent true) ∧
      ((machine lk (.write file) rest).run (acts ++ more)).parent = .returned) ∧
    (s.parent = .returned →
      (s.out.map Prod.fst).Perm (List.range s.forked) ∧ (s.forks = true → s.forked = PROCESS_NR) ∧
      (∃ after : Rest lk, after.drv = s.shared.drv) ∧
      ∃ js : List Nat, js.length = (s.out.countP fun e => 0 < e.2.bytes) ∧
        (∀ j ∈ js, j * SZ < file.length) ∧
        s.shared.drv.dev.contents = (q ++ js.flatMap (piece file)).take SZ_512 ∧
        s.shared.drv.dev.contents.length = q.length + (s.out.map fun e => e.2.bytes).sum ∧
        (file.length ≤ SZ →
          js.flatMap (piece file) = (List.replicate js.length file).flatten)) := by
  intro q s
  refine ⟨can_return (.write file) rest acts, fun hreturned => ?_⟩
  have hend : Ended (.write file) rest s := run_ended hreturned
  have hgoing := run_going (.write file) rest acts
  have hlines := hend.lines hgoing
  have hops (e : Op × Resp) (he : e ∈ s.shared.answers.map Prod.snd) :
      ∃ j, e.1.call = .write (piece file j) := by
    obtain ⟨a, ha, rfl⟩ := List.mem_map.mp he
    exact hgoing.asked a ha
  obtain ⟨js, hcount, hin, hfill, hsum⟩ := writes_fill hend.bounded hend.legal hops
  refine ⟨hend.reported, hend.all, hend.atRest, js, ?_, hin, hend.contents.trans hfill, ?_, ?_⟩
  · rw [hcount, countP_filter_file, hlines.countP_eq, List.countP_map, List.countP_map]
    congr 1
    funext a
    simp [report_bytes]
  · rw [hend.contents, hsum, sum_filter_file, (hlines.map _).sum_eq, List.map_map, List.map_map]
    congr 2
    apply List.map_congr_left
    intro a _
    simp [report_bytes]
  · intro hshort
    have hwhole (j : Nat) (hj : j ∈ js) : piece file j = file := by
      have hlt := hin j hj
      obtain rfl : j = 0 := by
        by_contra hpos
        have := Nat.le_mul_of_pos_left SZ (Nat.pos_of_ne_zero hpos)
        omega
      rw [piece, Nat.zero_mul, List.drop_zero, List.take_of_length_le hshort]
    rw [List.flatMap_def, List.map_congr_left hwhole, List.map_const']

end Steps

end Stress

end KernelDrivers.Kbufdrv
