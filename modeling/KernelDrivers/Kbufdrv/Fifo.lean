import Mathlib.Data.List.Induction
import KernelDrivers.Framework.Linearizability
import KernelDrivers.Kbufdrv.Device

namespace KernelDrivers.Kbufdrv

open Framework Kernel

/-- A `read` or `write` system call on a device; a write carries the user's bytes. -/
inductive Call where
  | read (cnt : Nat)
  | write (buf : List Byte)
  deriving DecidableEq

namespace Call

def cnt : Call → Nat
  | .read cnt => cnt
  | .write buf => buf.length

def isRead : Call → Bool
  | .read _ => true
  | .write _ => false

/-- The emptiness test of `kbuf_read` and the fullness test of `kbuf_write`. -/
def ready (pdev : Kbuf) : Call → Bool
  | .read _ => pdev.validlen != 0
  | .write _ => pdev.validlen != SZ_512

/-- What a driver that does not wait returns when the test fails. -/
def refusal : Call → Int
  | .read _ => -eagain
  | .write _ => -enospc

/-- The local `cnt` of a call after its `min`. -/
def clip (pdev : Kbuf) : Call → Nat
  | .read cnt => min cnt pdev.validlen
  | .write buf => min buf.length (sizeSub SZ_512 pdev.validlen)

end Call

/-- The part of `kbuf_read` and `kbuf_write` that follows the test. -/
def transfer (pdev : Kbuf) (call : Call) (fate : CopyFate) : Option Outcome :=
  match call with
  | .read cnt => readOut pdev cnt fate
  | .write buf => writeIn pdev buf fate

/-- A call together with whether its user copy left bytes over. -/
structure Op where
  call : Call
  failed : Bool
  deriving DecidableEq

/-- The operation a call amounts to when its user copy meets `fate`. -/
def Call.op (pdev : Kbuf) (call : Call) (fate : CopyFate) : Op :=
  ⟨call, fate.residue (call.clip pdev) != 0⟩

structure Resp where
  ret : Int
  out : List Byte
  deriving DecidableEq

/-- Whether a FIFO holding `q` has bytes for a read, or room for a write. -/
def available (q : List Byte) : Call → Bool
  | .read _ => q.length != 0
  | .write _ => q.length != SZ_512

def fifoEffect (q : List Byte) : Call → List Byte × Resp
  | .read cnt => (q.drop cnt, ⟨(min cnt q.length : Nat), q.take cnt⟩)
  | .write buf => (q ++ BoundedFifo.admitted SZ_512 q buf,
      ⟨(min buf.length (SZ_512 - q.length) : Nat), []⟩)

/-- The byte FIFO of 512 places that a device is meant to be. -/
def fifoStep (q : List Byte) (op : Op) : List Byte × Resp :=
  if op.call.cnt = 0 then (q, ⟨0, []⟩)
  else if available q op.call = false then (q, ⟨op.call.refusal, []⟩)
  else if op.failed then (q, ⟨-eio, []⟩)
  else fifoEffect q op.call

def fifo : SeqSpec (List Byte) Op Resp := ⟨[], fifoStep⟩

theorem ready_eq {pdev : Kbuf} (hb : pdev.Bounded) (call : Call) :
    call.ready pdev = available pdev.contents call := by
  cases call <;> simp [Call.ready, available, Kbuf.contents_length hb]

theorem Call.refusal_neg (call : Call) : call.refusal < 0 := by
  cases call <;> simp [refusal, eagain, enospc]

theorem fifoEffect_ret_nonneg (q : List Byte) (call : Call) : 0 ≤ (fifoEffect q call).2.ret := by
  cases call <;> exact Int.natCast_nonneg _

/-- Both ways the part after the test ends. -/
theorem transfer_cases {pdev : Kbuf} (hb : pdev.Bounded) (call : Call) (fate : CopyFate) :
    ∃ o, transfer pdev call fate = some o ∧ o.dev.Bounded ∧
      (((call.op pdev fate).failed = true ∧ o.ret = -eio ∧ o.out = [] ∧ o.moved = false ∧
          o.dev.validlen = pdev.validlen ∧ o.dev.contents = pdev.contents) ∨
        ((call.op pdev fate).failed = false ∧ o.moved = true ∧
          (o.dev.contents, (⟨o.ret, o.out⟩ : Resp)) = fifoEffect pdev.contents call)) := by
  have hlen := Kbuf.contents_length hb
  have hbound : pdev.validlen ≤ SZ_512 := hb
  cases call with
  | read cnt =>
    rcases readOut_cases hb cnt fate with ⟨hres, hret⟩ | ⟨hres, pdev', hret, hv, hc⟩
    · refine ⟨_, hret, hb, Or.inl ⟨?_, rfl, rfl, rfl, rfl, rfl⟩⟩
      simpa [Call.op, Call.clip] using hres
    · refine ⟨_, hret, ?_, Or.inr ⟨?_, rfl, ?_⟩⟩
      · rw [Kbuf.Bounded, hv]
        omega
      · simpa [Call.op, Call.clip] using hres
      · simp [fifoEffect, hc, hlen]
  | write buf =>
    have hroom := Kbuf.room_eq hb
    obtain ⟨pdev', ⟨hres, hret, hv, hc⟩ | ⟨hres, hret, hv, hc⟩⟩ := writeIn_cases hb buf fate
    · refine ⟨_, hret, ?_, Or.inl ⟨?_, rfl, rfl, rfl, hv, hc⟩⟩
      · rw [Kbuf.Bounded, hv]
        exact hbound
      · simpa [Call.op, Call.clip, hroom] using hres
    · refine ⟨_, hret, ?_, Or.inr ⟨?_, rfl, ?_⟩⟩
      · rw [Kbuf.Bounded, hv]
        omega
      · simpa [Call.op, Call.clip, hroom] using hres
      · simp [fifoEffect, hc, hlen]

/-- How a call moves `validlen`: not at all when it fails, down for a read that succeeds
and up for a write. -/
def Moves (pdev pdev' : Kbuf) : Call → Prop
  | .read _ => pdev'.validlen ≤ pdev.validlen
  | .write _ => pdev.validlen ≤ pdev'.validlen

theorem transfer_moves {pdev : Kbuf} (hb : pdev.Bounded) (call : Call) (fate : CopyFate) :
    ∃ o, transfer pdev call fate = some o ∧ o.dev.Bounded ∧
      (o.moved = false → o.dev.validlen = pdev.validlen) ∧ Moves pdev o.dev call := by
  obtain ⟨o, ho, hb', hend⟩ := transfer_cases hb call fate
  refine ⟨o, ho, hb', ?_⟩
  have hlen := Kbuf.contents_length hb
  have hlen' := Kbuf.contents_length hb'
  cases hend with
  | inl hfail =>
    obtain ⟨-, -, -, -, hv, -⟩ := hfail
    refine ⟨fun _ => hv, ?_⟩
    cases call with
    | read cnt => exact Nat.le_of_eq hv
    | write buf => exact Nat.le_of_eq hv.symm
  | inr hdone =>
    obtain ⟨-, hmoved, heff⟩ := hdone
    have hcontents := congrArg Prod.fst heff
    refine ⟨fun h => absurd (hmoved.symm.trans h) (by decide), ?_⟩
    cases call with
    | read cnt =>
      simp only [fifoEffect] at hcontents
      rw [hcontents, List.length_drop] at hlen'
      show o.dev.validlen ≤ pdev.validlen
      omega
    | write buf =>
      simp only [fifoEffect] at hcontents
      rw [hcontents, List.length_append] at hlen'
      show pdev.validlen ≤ o.dev.validlen
      omega

/-- The bytes a write has accepted, as its return value tells. -/
def acceptedBy (e : Op × Resp) : List Byte :=
  match e.1.call with
  | .read _ => []
  | .write buf => buf.take e.2.ret.toNat

/-- The bytes a read has delivered. -/
def deliveredBy (e : Op × Resp) : List Byte :=
  match e.1.call with
  | .read _ => e.2.out
  | .write _ => []

theorem acceptedBy_of_nonpos {op : Op} {resp : Resp} (h : resp.ret ≤ 0) :
    acceptedBy (op, resp) = [] := by
  obtain ⟨call, failed⟩ := op
  cases call with
  | read cnt => rfl
  | write buf => simp [acceptedBy, Int.toNat_of_nonpos h]

theorem deliveredBy_of_out {op : Op} {resp : Resp} (h : resp.out = []) :
    deliveredBy (op, resp) = [] := by
  obtain ⟨call, failed⟩ := op
  cases call <;> simp [deliveredBy, h]

/-- A call either leaves the FIFO as it is and moves no bytes, or has its full effect. -/
theorem fifoStep_cases (q : List Byte) (op : Op) :
    (∃ ret ≤ 0, fifoStep q op = (q, ⟨ret, []⟩) ∧ (ret = 0 → op.call.cnt = 0)) ∨
      fifoStep q op = fifoEffect q op.call := by
  unfold fifoStep
  by_cases h0 : op.call.cnt = 0
  · exact Or.inl ⟨0, Int.le_refl 0, by rw [if_pos h0], fun _ => h0⟩
  rw [if_neg h0]
  by_cases ha : available q op.call = false
  · have hneg := op.call.refusal_neg
    exact Or.inl ⟨op.call.refusal, by omega, by rw [if_pos ha], fun h => by omega⟩
  rw [if_neg ha]
  by_cases hf : op.failed = true
  · exact Or.inl ⟨-eio, by decide, by rw [if_pos hf], fun h => absurd h (by decide)⟩
  · exact Or.inr (if_neg hf)

/-- One step of the FIFO is a push of what was accepted and a pop of what was delivered. -/
theorem fifoStep_account (f : BoundedFifo Byte SZ_512) (op : Op) :
    ∃ f' : BoundedFifo Byte SZ_512, f'.queue = (fifoStep f.queue op).1 ∧
      f'.accepted = f.accepted ++ acceptedBy (op, (fifoStep f.queue op).2) ∧
      f'.delivered = f.delivered ++ deliveredBy (op, (fifoStep f.queue op).2) := by
  rcases fifoStep_cases f.queue op with ⟨ret, hret, hstep, -⟩ | hstep
  · rw [hstep]
    refine ⟨f, rfl, ?_, ?_⟩
    · rw [acceptedBy_of_nonpos hret, List.append_nil]
    · rw [deliveredBy_of_out rfl, List.append_nil]
  · rw [hstep]
    obtain ⟨call, failed⟩ := op
    cases call with
    | read cnt => exact ⟨f.pop cnt, rfl, by simp [BoundedFifo.pop, acceptedBy], rfl⟩
    | write buf =>
      have htake : buf.take (min buf.length (SZ_512 - f.queue.length)) =
          BoundedFifo.admitted SZ_512 f.queue buf := by
        rw [BoundedFifo.admitted, List.take_eq_take_iff]
        omega
      have htaken : acceptedBy (⟨.write buf, failed⟩, (fifoEffect f.queue (.write buf)).2) =
          BoundedFifo.admitted SZ_512 f.queue buf := by
        simp only [acceptedBy, fifoEffect, Int.toNat_natCast, htake]
      exact ⟨f.push buf, rfl, congrArg _ htaken.symm, (List.append_nil _).symm⟩

/-- Every sequence of calls answered by the FIFO has a balanced account. -/
theorem legal_account {l : List (Op × Resp)} (h : fifo.Legal l) :
    ∃ f : BoundedFifo Byte SZ_512, f.queue = fifo.replay [] l ∧
      f.accepted = l.flatMap acceptedBy ∧ f.delivered = l.flatMap deliveredBy := by
  induction l using List.reverseRecOn with
  | nil => exact ⟨BoundedFifo.empty, rfl, rfl, rfl⟩
  | append_singleton l e ih =>
    obtain ⟨hl, he⟩ := (fifo.legal_concat l e).mp h
    obtain ⟨f, hq, ha, hd⟩ := ih hl
    obtain ⟨f', hq', ha', hd'⟩ := fifoStep_account f e.1
    have hresp : (e.1, (fifoStep f.queue e.1).2) = e := Prod.ext rfl (by rw [hq]; exact he)
    rw [hresp] at ha' hd'
    refine ⟨f', ?_, ?_, ?_⟩
    · rw [fifo.replay_concat, hq', hq]
      rfl
    · simp [ha', ha]
    · simp [hd', hd]

end KernelDrivers.Kbufdrv
