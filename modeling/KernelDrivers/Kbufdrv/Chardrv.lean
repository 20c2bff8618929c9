import Mathlib.Logic.Function.Basic
import KernelDrivers.Kbufdrv.Fifo

namespace KernelDrivers.Kbufdrv.Chardrv

open Framework Kernel

def KBUFNUM : Nat := 16

/-- `inodp->i_cdev` points to the `cdev` of one element of `kbufs`. -/
structure Inode where
  iCdev : Fin KBUFNUM

structure File where
  privateData : Fin KBUFNUM

/-- `container_of` takes the pointer to the element's `cdev` back to the element. -/
def kbufOpen (inodp : Inode) : File := ⟨inodp.iCdev⟩

/-- A device file that is opened leads to the device that it stands for. -/
theorem kbufOpen_privateData (inodp : Inode) : (kbufOpen inodp).privateData = inodp.iCdev := rfl

def kbufRead (pdev : Kbuf) (cnt : Nat) (fate : CopyFate) : Option Outcome :=
  if cnt = 0 then some ⟨0, [], pdev, false⟩
  else if pdev.validlen = 0 then some ⟨-eagain, [], pdev, false⟩
  else readOut pdev cnt fate

def kbufWrite (pdev : Kbuf) (buf : List Byte) (fate : CopyFate) : Option Outcome :=
  if buf.length = 0 then some ⟨0, [], pdev, false⟩
  else if pdev.validlen = SZ_512 then some ⟨-enospc, [], pdev, false⟩
  else writeIn pdev buf fate

/-- The `read` and `write` members of `fops`. -/
def fops (pdev : Kbuf) (call : Call) (fate : CopyFate) : Option Outcome :=
  match call with
  | .read cnt => kbufRead pdev cnt fate
  | .write buf => kbufWrite pdev buf fate

theorem fops_eq (pdev : Kbuf) (call : Call) (fate : CopyFate) :
    fops pdev call fate =
      if call.cnt = 0 then some ⟨0, [], pdev, false⟩
      else if call.ready pdev = false then some ⟨call.refusal, [], pdev, false⟩
      else transfer pdev call fate := by
  cases call with
  | read cnt =>
    by_cases hv : pdev.validlen = 0 <;>
      simp [fops, kbufRead, Call.cnt, Call.ready, Call.refusal, transfer, hv]
  | write buf =>
    by_cases hv : pdev.validlen = SZ_512 <;>
      simp [fops, kbufWrite, Call.cnt, Call.ready, Call.refusal, transfer, hv]

/-- On its own device a call is one step of the FIFO, and a refused call keeps `validlen`. -/
theorem fops_refines {pdev : Kbuf} (hb : pdev.Bounded) (call : Call) (fate : CopyFate) :
    ∃ o, fops pdev call fate = some o ∧ o.dev.Bounded ∧
      fifoStep pdev.contents (call.op pdev fate) = (o.dev.contents, ⟨o.ret, o.out⟩) ∧
      (o.ret < 0 → o.dev.validlen = pdev.validlen ∧ o.dev.contents = pdev.contents) := by
  have hop : (call.op pdev fate).call = call := rfl
  rw [fops_eq, fifoStep, hop, ready_eq hb]
  by_cases h0 : call.cnt = 0
  · rw [if_pos h0, if_pos h0]
    exact ⟨_, rfl, hb, rfl, fun _ => ⟨rfl, rfl⟩⟩
  rw [if_neg h0, if_neg h0]
  by_cases ha : available pdev.contents call = false
  · rw [if_pos ha, if_pos ha]
    exact ⟨_, rfl, hb, rfl, fun _ => ⟨rfl, rfl⟩⟩
  rw [if_neg ha, if_neg ha]
  obtain ⟨o, ho, hb', ⟨hf, hret, hout, -, hv, hc⟩ | ⟨hf, -, heff⟩⟩ := transfer_cases hb call fate
  · rw [if_pos hf]
    exact ⟨o, ho, hb', by rw [hc, hret, hout], fun _ => ⟨hv, hc⟩⟩
  · rw [if_neg (by simp [hf])]
    refine ⟨o, ho, hb', heff.symm, ?_⟩
    intro hneg
    have hnn := fifoEffect_ret_nonneg pdev.contents call
    rw [← heff] at hnn
    simp only at hnn
    omega

/-- One system call: the device file it was opened through, the call and the fate of its
user copy. -/
structure Request where
  inodp : Inode
  call : Call
  fate : CopyFate

/-- A served call as seen from outside the driver: `minor` is the device that it was addressed to,
whichever the driver has served it on. -/
structure Entry where
  minor : Fin KBUFNUM
  op : Op
  resp : Resp

def Entry.exchange (e : Entry) : Op × Resp := (e.op, e.resp)

abbrev Kbufs := Fin KBUFNUM → Kbuf

def loaded : Kbufs := fun _ => Kbuf.fresh

/-- The call is made on the file that `kbuf_open` has set up. -/
def serve (kbufs : Kbufs) (r : Request) : Option (Entry × Kbufs) :=
  let filp := kbufOpen r.inodp
  let pdev := kbufs filp.privateData
  (fops pdev r.call r.fate).map fun o =>
    (⟨r.inodp.iCdev, r.call.op pdev r.fate, ⟨o.ret, o.out⟩⟩,
      Function.update kbufs filp.privateData o.dev)

/-- The log of a sequence of calls and the devices after it; there is none when some
access leaves its buffer. -/
def serveAll (reqs : List Request) : Option (List Entry × Kbufs) :=
  reqs.foldlM (fun s r => (serve s.2 r).map fun e => (s.1 ++ [e.1], e.2)) ([], loaded)

def callsOf (minor : Fin KBUFNUM) (log : List Entry) : List (Op × Resp) :=
  (log.filter fun e => e.minor = minor).map Entry.exchange

theorem callsOf_concat_self (log : List Entry) (e : Entry) :
    callsOf e.minor (log ++ [e]) = callsOf e.minor log ++ [e.exchange] := by
  simp [callsOf]

theorem callsOf_concat_other {minor : Fin KBUFNUM} (log : List Entry) {e : Entry}
    (h : minor ≠ e.minor) : callsOf minor (log ++ [e]) = callsOf minor log := by
  simp [callsOf, Ne.symm h]

/-- What one served call may do, with the device that it is addressed to and with the others. -/
structure CallSpec (kbufs : Kbufs) (r : Request) (e : Entry) (kbufs' : Kbufs) : Prop where
  addressed : e.minor = r.inodp.iCdev
  asked : e.op.call = r.call
  readExact : ∀ cnt, r.call = .read cnt → 0 ≤ e.resp.ret →
    e.resp.ret = (min cnt (kbufs r.inodp.iCdev).validlen : Nat) ∧
      e.resp.out.length = min cnt (kbufs r.inodp.iCdev).validlen
  writeExact : ∀ buf, r.call = .write buf → 0 ≤ e.resp.ret →
    e.resp.ret = (min buf.length (SZ_512 - (kbufs r.inodp.iCdev).validlen) : Nat)
  refused : e.resp.ret < 0 → (kbufs' r.inodp.iCdev).validlen = (kbufs r.inodp.iCdev).validlen ∧
    (kbufs' r.inodp.iCdev).contents = (kbufs r.inodp.iCdev).contents
  others : ∀ minor, minor ≠ r.inodp.iCdev → kbufs' minor = kbufs minor

/-- A step of the FIFO that does not fail transfers all that it can. -/
theorem fifoStep_exact {q : List Byte} {op : Op} (hret : 0 ≤ (fifoStep q op).2.ret) :
    (fifoStep q op).2 = (fifoEffect q op.call).2 := by
  rcases fifoStep_cases q op with ⟨ret, hle, hstep, hzero⟩ | hstep
  · rw [hstep] at hret ⊢
    have h0 : ret = 0 := by
      simp only at hret
      omega
    have hcnt := hzero h0
    obtain ⟨call, failed⟩ := op
    cases call with
    | read cnt =>
      obtain rfl : cnt = 0 := hcnt
      simp [fifoEffect, h0]
    | write buf =>
      obtain rfl : buf = [] := List.eq_nil_of_length_eq_zero hcnt
      simp [fifoEffect, h0]
  · rw [hstep]

/-- A call on bounded devices is served, does what it may do, and is a step of the FIFO
of its own device. -/
theorem serve_spec {kbufs : Kbufs} (hb : ∀ minor, (kbufs minor).Bounded) (r : Request) :
    ∃ e kbufs', serve kbufs r = some (e, kbufs') ∧ CallSpec kbufs r e kbufs' ∧
      (∀ minor, (kbufs' minor).Bounded) ∧
      fifoStep (kbufs r.inodp.iCdev).contents e.op = ((kbufs' r.inodp.iCdev).contents, e.resp) := by
  obtain ⟨o, ho, hb', hstep, hneg⟩ := fops_refines (hb r.inodp.iCdev) r.call r.fate
  have hlen := Kbuf.contents_length (hb r.inodp.iCdev)
  have hexact : 0 ≤ o.ret → (⟨o.ret, o.out⟩ : Resp) =
      (fifoEffect (kbufs r.inodp.iCdev).contents r.call).2 := by
    intro hret
    have hs := congrArg Prod.snd hstep
    exact hs.symm.trans (fifoStep_exact (by rw [hs]; exact hret))
  refine ⟨⟨r.inodp.iCdev, r.call.op (kbufs r.inodp.iCdev) r.fate, ⟨o.ret, o.out⟩⟩,
    Function.update kbufs r.inodp.iCdev o.dev, by simp [serve, kbufOpen_privateData, ho], ?_, ?_,
    by simpa using hstep⟩
  · refine ⟨rfl, rfl, ?_, ?_, ?_, ?_⟩
    · intro cnt hc hret
      have he := hexact hret
      rw [hc, fifoEffect, Resp.mk.injEq, hlen] at he
      exact ⟨he.1, by rw [he.2, List.length_take, hlen]⟩
    · intro buf hc hret
      have he := hexact hret
      rw [hc, fifoEffect, Resp.mk.injEq, hlen] at he
      exact he.1
    · intro h
      simpa using hneg h
    · intro minor hm
      exact Function.update_of_ne hm _ _
  · intro minor
    by_cases hm : minor = r.inodp.iCdev
    · subst hm
      simpa using hb'
    · rw [Function.update_of_ne hm]
      exact hb minor

/-- Every device holds what the FIFO holds after the device's own calls. -/
structure Refines (log : List Entry) (kbufs : Kbufs) : Prop where
  bounded : ∀ minor, (kbufs minor).Bounded
  legal : ∀ minor, fifo.Legal (callsOf minor log)
  holds : ∀ minor, fifo.replay [] (callsOf minor log) = (kbufs minor).contents

theorem Refines.serve {log : List Entry} {kbufs : Kbufs} (h : Refines log kbufs) (r : Request) :
    ∃ e kbufs', serve kbufs r = some (e, kbufs') ∧ CallSpec kbufs r e kbufs' ∧
      Refines (log ++ [e]) kbufs' := by
  obtain ⟨e, kbufs', hserve, hspec, hb, hstep⟩ := serve_spec h.bounded r
  have hminor := hspec.addressed
  rw [← hminor] at hstep
  have hreplay : fifo.step (fifo.replay fifo.init (callsOf e.minor log)) e.op =
      ((kbufs' e.minor).contents, e.resp) := by
    rw [← hstep, ← h.holds e.minor]
    rfl
  refine ⟨e, kbufs', hserve, hspec, hb, ?_, ?_⟩
  · intro minor
    by_cases hm : minor = e.minor
    · subst hm
      rw [callsOf_concat_self]
      exact (fifo.legal_concat _ _).mpr ⟨h.legal _, congrArg Prod.snd hreplay⟩
    · rw [callsOf_concat_other log hm]
      exact h.legal minor
  · intro minor
    by_cases hm : minor = e.minor
    · subst hm
      rw [callsOf_concat_self, fifo.replay_concat]
      exact congrArg Prod.fst hreplay
    · rw [callsOf_concat_other log hm, h.holds minor, hspec.others minor (hminor ▸ hm)]

/-- What a call was addressed to and what it asked for. -/
def Entry.asked (e : Entry) : Fin KBUFNUM × Call := (e.minor, e.op.call)

def Request.asks (r : Request) : Fin KBUFNUM × Call := (r.inodp.iCdev, r.call)

theorem serveAll_refines (reqs : List Request) :
    ∃ log kbufs, serveAll reqs = some (log, kbufs) ∧
      log.map Entry.asked = reqs.map Request.asks ∧ Refines log kbufs := by
  induction reqs using List.reverseRecOn with
  | nil =>
    exact ⟨[], loaded, rfl, rfl, fun _ => Kbuf.fresh_bounded, fun _ => trivial, fun _ => rfl⟩
  | append_singleton reqs r ih =>
    obtain ⟨log, kbufs, hall, hasked, href⟩ := ih
    obtain ⟨e, kbufs', hserve, hspec, href'⟩ := href.serve r
    have he : e.asked = r.asks := Prod.ext hspec.addressed hspec.asked
    refine ⟨log ++ [e], kbufs', ?_, ?_, href'⟩
    · unfold serveAll at hall ⊢
      simp [List.foldlM_append, hall, hserve]
    · simp only [List.map_append, hasked, List.map_cons, List.map_nil, he]

/-- Sixteen bounded FIFOs: after any sequence of calls the bytes delivered, followed by
the bytes stored, are the bytes accepted, for each device by itself with the calls addressed to it,
and every further call transfers exactly what it can or changes nothing. -/
theorem kbufs_bounded_fifo (reqs : List Request) :
    ∃ log kbufs, serveAll reqs = some (log, kbufs) ∧
      log.map Entry.asked = reqs.map Request.asks ∧
      (∀ minor, (kbufs minor).validlen ≤ SZ_512 ∧
        (callsOf minor log).flatMap deliveredBy ++ (kbufs minor).contents =
          (callsOf minor log).flatMap acceptedBy) ∧
      ∀ r, ∃ e kbufs', serve kbufs r = some (e, kbufs') ∧ CallSpec kbufs r e kbufs' := by
  obtain ⟨log, kbufs, hall, hasked, href⟩ := serveAll_refines reqs
  refine ⟨log, kbufs, hall, hasked, ?_, ?_⟩
  · intro minor
    obtain ⟨f, hq, ha, hd⟩ := legal_account (href.legal minor)
    refine ⟨href.bounded minor, ?_⟩
    rw [← hd, ← ha, ← href.holds minor, ← hq]
    exact f.balance
  · intro r
    obtain ⟨e, kbufs', hserve, hspec, -⟩ := href.serve r
    exact ⟨e, kbufs', hserve, hspec⟩

end KernelDrivers.Kbufdrv.Chardrv
