import KernelDrivers.Kbufdrv.Blocking
import KernelDrivers.Kbufdrv.Chardrv

namespace KernelDrivers.Kbufdrv.Chardrv

open Framework Kernel

/-- Calls whose user copies all succeed. -/
def copied (calls : List Call) : List (Call × CopyFate) := calls.map fun call => (call, .success)

/-- How many bytes a sequence of writes has accepted; a refused one counts as 0. -/
def accepted : List Outcome → Nat
  | [] => 0
  | o :: os => o.ret.toNat + accepted os

/-- The bytes a sequence of reads has delivered. -/
def delivered (os : List Outcome) : List Byte := os.flatMap Outcome.out

/-- The size of the one read that asks for as much as a sequence of reads. -/
def sizeOfReads : List Nat → Nat
  | [] => 0
  | n :: ns => n + sizeOfReads ns

/-- What the caller sees of an outcome; the bytes behind the valid ones are not part of it. -/
def answer (o : Outcome) : Int × List Byte := (o.ret, o.out)

/-- The bytes `xs` follow the valid ones, and nothing else has changed. -/
structure Stored (pdev : Kbuf) (xs : List Byte) (pdev' : Kbuf) : Prop where
  written : pdev.kbuf.write? pdev.validlen xs = some pdev'.kbuf
  validlen : pdev'.validlen = pdev.validlen + xs.length

theorem Stored.nil {pdev : Kbuf} (hb : pdev.Bounded) : Stored pdev [] pdev :=
  ⟨pdev.kbuf.write?_nil hb, rfl⟩

theorem Stored.append {pdev pdev' pdev'' : Kbuf} {xs ys : List Byte} (h : Stored pdev xs pdev')
    (h' : Stored pdev' ys pdev'') : Stored pdev (xs ++ ys) pdev'' := by
  obtain ⟨hw, hv⟩ := h
  obtain ⟨hw', hv'⟩ := h'
  constructor
  · rw [← FixedBuffer.write?_write? _ hw, ← hv]
    exact hw'
  · rw [hv', hv, List.length_append, Nat.add_assoc]

theorem Stored.unique {pdev dev dev' : Kbuf} {xs : List Byte} (h : Stored pdev xs dev)
    (h' : Stored pdev xs dev') : dev = dev' := by
  obtain ⟨kbuf, validlen⟩ := dev
  obtain ⟨kbuf', validlen'⟩ := dev'
  have hk : kbuf = kbuf' := Option.some.inj (h.written.symm.trans h'.written)
  have hv : validlen = validlen' := h.validlen.trans h'.validlen.symm
  rw [hk, hv]

theorem Stored.contents {pdev pdev' : Kbuf} {xs : List Byte} (h : Stored pdev xs pdev')
    (hfits : pdev.validlen + xs.length ≤ SZ_512) : pdev'.contents = pdev.contents ++ xs := by
  have hw := h.written
  rw [FixedBuffer.write?_eq_some _ hfits, Option.some_inj] at hw
  rw [Kbuf.contents, ← hw, h.validlen, FixedBuffer.front_splice_append, Kbuf.contents]

theorem residue_success (n : Nat) : CopyFate.success.residue n = 0 := Nat.zero_min n

theorem landed_success (bs : List Byte) : CopyFate.success.landed bs = bs :=
  CopyFate.landed_of_residue (residue_success _)

theorem admitted_count {pdev : Kbuf} (hb : pdev.Bounded) (buf : List Byte) :
    (BoundedFifo.admitted SZ_512 pdev.contents buf).length =
      min buf.length (SZ_512 - pdev.validlen) := by
  rw [BoundedFifo.admitted_length, Kbuf.contents_length hb]

/-- The part of a write after the test, when its copy succeeds. -/
theorem writeIn_stored {pdev : Kbuf} (hb : pdev.Bounded) (buf : List Byte) :
    ∃ pdev', writeIn pdev buf .success = some
        ⟨((BoundedFifo.admitted SZ_512 pdev.contents buf).length : Nat), [], pdev', true⟩ ∧
      Stored pdev (BoundedFifo.admitted SZ_512 pdev.contents buf) pdev' := by
  have hbound : pdev.validlen ≤ SZ_512 := hb
  have hmax : SZ_512 ≤ SIZE_MAX := by decide
  have hlen := admitted_count hb buf
  have htake : buf.take (min buf.length (SZ_512 - pdev.validlen)) =
      BoundedFifo.admitted SZ_512 pdev.contents buf := by
    rw [BoundedFifo.admitted, Kbuf.contents_length hb, List.take_eq_take_iff]
    omega
  have hfits : pdev.validlen + (BoundedFifo.admitted SZ_512 pdev.contents buf).length ≤ SZ_512 := by
    omega
  rw [← hlen] at htake
  refine ⟨⟨pdev.kbuf.splice pdev.validlen _ hfits, pdev.validlen + _⟩, ?_,
    ⟨FixedBuffer.write?_eq_some _ hfits, rfl⟩⟩
  simp only [writeIn, Kbuf.room_eq hb, ← hlen, htake, Kbuf.copyFromUser, landed_success,
    residue_success, FixedBuffer.write?_eq_some _ hfits, Option.map_some]
  simp [sizeAdd_of_lt (Nat.le_trans hfits hmax)]

/-- A write whose copy succeeds puts what the device has room for behind its valid bytes. -/
theorem fops_write {pdev : Kbuf} (hb : pdev.Bounded) (buf : List Byte) :
    ∃ o, fops pdev (.write buf) .success = some o ∧ o.dev.Bounded ∧
      Stored pdev (BoundedFifo.admitted SZ_512 pdev.contents buf) o.dev ∧
      o.ret.toNat = (BoundedFifo.admitted SZ_512 pdev.contents buf).length := by
  have hbound : pdev.validlen ≤ SZ_512 := hb
  have hlen := admitted_count hb buf
  have hnothing (hz : (BoundedFifo.admitted SZ_512 pdev.contents buf).length = 0) :
      Stored pdev (BoundedFifo.admitted SZ_512 pdev.contents buf) pdev := by
    rw [List.eq_nil_of_length_eq_zero hz]
    exact Stored.nil hb
  rw [fops_eq]
  by_cases h0 : (Call.write buf).cnt = 0
  · have hz : buf.length = 0 := h0
    rw [if_pos h0]
    exact ⟨_, rfl, hb, hnothing (by omega), by simp; omega⟩
  rw [if_neg h0]
  by_cases hr : (Call.write buf).ready pdev = false
  · have hfull : pdev.validlen = SZ_512 := by simpa [Call.ready] using hr
    rw [if_pos hr]
    exact ⟨_, rfl, hb, hnothing (by omega), by simp [Call.refusal, enospc]; omega⟩
  rw [if_neg hr]
  obtain ⟨pdev', hw, hs⟩ := writeIn_stored hb buf
  refine ⟨_, hw, ?_, hs, Int.toNat_natCast _⟩
  show pdev'.validlen ≤ SZ_512
  rw [hs.validlen]
  omega

/-- A read of the FIFO whose copy succeeds, whether it is refused or not. -/
theorem fifoStep_read (q : List Byte) (cnt : Nat) :
    (fifoStep q ⟨.read cnt, false⟩).1 = q.drop cnt ∧
      (fifoStep q ⟨.read cnt, false⟩).2.out = q.take cnt := by
  by_cases h0 : cnt = 0
  · simp [fifoStep, Call.cnt, h0]
  by_cases hq : q = []
  · simp [fifoStep, Call.cnt, h0, hq, available]
  · have ha : available q (.read cnt) = true := by simpa [available] using hq
    simp [fifoStep, Call.cnt, h0, ha, fifoEffect]

/-- A read whose copy succeeds takes bytes from the front of the valid ones. -/
theorem fops_read {pdev : Kbuf} (hb : pdev.Bounded) (cnt : Nat) :
    ∃ o, fops pdev (.read cnt) .success = some o ∧ o.dev.Bounded ∧
      o.out = pdev.contents.take cnt ∧ o.dev.contents = pdev.contents.drop cnt := by
  obtain ⟨o, ho, hb', hstep, -⟩ := fops_refines hb (.read cnt) .success
  have hop : (Call.read cnt).op pdev .success = ⟨.read cnt, false⟩ := by
    simp [Call.op, residue_success]
  obtain ⟨hq, hout⟩ := fifoStep_read pdev.contents cnt
  rw [← hop, hstep] at hq hout
  exact ⟨o, ho, hb', hout, hq⟩

/-- Devices with the same valid bytes answer every call alike and keep the same valid bytes. -/
theorem fops_congr {dev dev' : Kbuf} (hb : dev.Bounded) (hb' : dev'.Bounded)
    (h : dev.contents = dev'.contents) (call : Call) (fate : CopyFate) :
    ∃ o o', fops dev call fate = some o ∧ fops dev' call fate = some o' ∧ o.dev.Bounded ∧
      o'.dev.Bounded ∧ answer o = answer o' ∧ o.dev.contents = o'.dev.contents := by
  obtain ⟨o, ho, hbo, hstep, -⟩ := fops_refines hb call fate
  obtain ⟨o', ho', hbo', hstep', -⟩ := fops_refines hb' call fate
  have hv : dev.validlen = dev'.validlen := by
    rw [← Kbuf.contents_length hb, h, Kbuf.contents_length hb']
  have hop : call.op dev fate = call.op dev' fate := by
    cases call <;> simp [Call.op, Call.clip, hv]
  rw [h, hop, hstep', Prod.mk.injEq, Resp.mk.injEq] at hstep
  obtain ⟨hc, hret, hout⟩ := hstep
  exact ⟨o, o', ho, ho', hbo, hbo', by rw [answer, answer, hret, hout], hc.symm⟩

/-- No sequence of calls tells devices with the same valid bytes apart. -/
theorem callAll_congr {dev dev' : Kbuf} (hb : dev.Bounded) (hb' : dev'.Bounded)
    (h : dev.contents = dev'.contents) (calls : List (Call × CopyFate)) :
    ∃ os os', callAll fops dev calls = some os ∧ callAll fops dev' calls = some os' ∧
      os.map answer = os'.map answer := by
  induction calls generalizing dev dev' with
  | nil => exact ⟨[], [], rfl, rfl, rfl⟩
  | cons c cs ih =>
    obtain ⟨o, o', ho, ho', hbo, hbo', ha, hc⟩ := fops_congr hb hb' h c.1 c.2
    obtain ⟨os, os', hos, hos', has⟩ := ih hbo hbo' hc
    refine ⟨o :: os, o' :: os', ?_, ?_, ?_⟩
    · simp [callAll, ho, hos]
    · simp [callAll, ho', hos']
    · rw [List.map_cons, List.map_cons, ha, has]

theorem callAll_copied {pdev : Kbuf} {call : Call} {calls : List Call} {o : Outcome}
    {os : List Outcome} (ho : fops pdev call .success = some o)
    (hos : callAll fops o.dev (copied calls) = some os) :
    callAll fops pdev (copied (call :: calls)) = some (o :: os) := by
  have hcons : copied (call :: calls) = (call, .success) :: copied calls := rfl
  rw [hcons, callAll, ho, Option.bind_some, hos, Option.map_some]

/-- A sequence of writes stores what one write of the joined chunks would store. -/
theorem writes_stored {pdev : Kbuf} (hb : pdev.Bounded) (chunks : List (List Byte)) :
    ∃ os, callAll fops pdev (copied (chunks.map .write)) = some os ∧
      Stored pdev (BoundedFifo.admitted SZ_512 pdev.contents chunks.flatten) (lastDev pdev os) ∧
      accepted os = (BoundedFifo.admitted SZ_512 pdev.contents chunks.flatten).length := by
  induction chunks generalizing pdev with
  | nil =>
    refine ⟨[], rfl, ?_, ?_⟩
    · simpa [BoundedFifo.admitted, lastDev] using Stored.nil hb
    · simp [BoundedFifo.admitted, accepted]
  | cons chunk chunks ih =>
    obtain ⟨o, ho, hbo, hs, hret⟩ := fops_write hb chunk
    obtain ⟨os, hos, hss, hacc⟩ := ih hbo
    have hlen := admitted_count hb chunk
    have hfits : pdev.validlen + (BoundedFifo.admitted SZ_512 pdev.contents chunk).length ≤
        SZ_512 := by
      have hbound : pdev.validlen ≤ SZ_512 := hb
      omega
    rw [hs.contents hfits] at hss hacc
    rw [List.flatten_cons, BoundedFifo.admitted_append]
    refine ⟨o :: os, callAll_copied ho hos, hs.append hss, ?_⟩
    rw [accepted, hret, hacc, List.length_append]

/-- A sequence of reads delivers and leaves what one read of all they ask for would. -/
theorem reads_taken {pdev : Kbuf} (hb : pdev.Bounded) (sizes : List Nat) :
    ∃ os, callAll fops pdev (copied (sizes.map .read)) = some os ∧ (lastDev pdev os).Bounded ∧
      delivered os = pdev.contents.take (sizeOfReads sizes) ∧
      (lastDev pdev os).contents = pdev.contents.drop (sizeOfReads sizes) := by
  induction sizes generalizing pdev with
  | nil => exact ⟨[], rfl, hb, rfl, rfl⟩
  | cons n ns ih =>
    obtain ⟨o, ho, hbo, hout, hc⟩ := fops_read hb n
    obtain ⟨os, hos, hb', hdel, hlast⟩ := ih hbo
    refine ⟨o :: os, callAll_copied ho hos, hb', ?_, ?_⟩
    · rw [delivered, List.flatMap_cons, ← delivered, hdel, hout, hc, sizeOfReads, List.take_add]
    · rw [lastDev, hlast, hc, List.drop_drop, sizeOfReads]

/-- The chunks of a write do not matter: every sequence of writes leaves the device of the one
write of all its bytes and accepts as much. The reads that ask together for what one read asks for
deliver the same bytes and leave the same valid bytes, so no later call can tell. -/
theorem chunks_do_not_matter (reqs : List Request) :
    ∃ log kbufs, serveAll reqs = some (log, kbufs) ∧ ∀ minor,
      (∀ chunks : List (List Byte), ∃ os o,
        callAll fops (kbufs minor) (copied (chunks.map .write)) = some os ∧
        fops (kbufs minor) (.write chunks.flatten) .success = some o ∧
        lastDev (kbufs minor) os = o.dev ∧ accepted os = accepted [o]) ∧
      ∀ sizes : List Nat, ∃ os o,
        callAll fops (kbufs minor) (copied (sizes.map .read)) = some os ∧
        fops (kbufs minor) (.read (sizeOfReads sizes)) .success = some o ∧
        delivered os = o.out ∧
        (lastDev (kbufs minor) os).validlen = o.dev.validlen ∧
        (lastDev (kbufs minor) os).contents = o.dev.contents ∧
        ∀ calls, ∃ later later', callAll fops (lastDev (kbufs minor) os) calls = some later ∧
          callAll fops o.dev calls = some later' ∧ later.map answer = later'.map answer := by
  obtain ⟨log, kbufs, hall, -, href⟩ := serveAll_refines reqs
  refine ⟨log, kbufs, hall, fun minor => ⟨?_, ?_⟩⟩
  · intro chunks
    obtain ⟨os, hos, hs, hacc⟩ := writes_stored (href.bounded minor) chunks
    obtain ⟨o, ho, -, hone, hret⟩ := fops_write (href.bounded minor) chunks.flatten
    refine ⟨os, o, hos, ho, hs.unique hone, ?_⟩
    rw [hacc, accepted, hret, accepted, Nat.add_zero]
  · intro sizes
    obtain ⟨os, hos, hb, hdel, hc⟩ := reads_taken (href.bounded minor) sizes
    obtain ⟨o, ho, hb', hout, hc'⟩ := fops_read (href.bounded minor) (sizeOfReads sizes)
    have hsame : (lastDev (kbufs minor) os).contents = o.dev.contents := hc.trans hc'.symm
    refine ⟨os, o, hos, ho, hdel.trans hout.symm, ?_, hsame, callAll_congr hb hb' hsame⟩
    rw [← Kbuf.contents_length hb, hsame, Kbuf.contents_length hb']

/-- After a write of four bytes, two reads of one byte each leave other stale bytes behind the
valid ones than one read of two. -/
theorem chunked_reads_leave_other_stale_bytes :
    ¬ ∀ (reqs : List Request) (log : List Entry) (kbufs : Kbufs) (minor : Fin KBUFNUM)
        (sizes : List Nat) (os : List Outcome) (o : Outcome),
      serveAll reqs = some (log, kbufs) →
      callAll fops (kbufs minor) (copied (sizes.map .read)) = some os →
      fops (kbufs minor) (.read (sizeOfReads sizes)) .success = some o →
      lastDev (kbufs minor) os = o.dev := by
  intro h
  have heval : ((serveAll [⟨⟨⟨0, by decide⟩⟩, .write [1, 2, 3, 4], .success⟩]).bind fun s =>
      (callAll fops (s.2 ⟨0, by decide⟩) (copied ([1, 1].map .read))).bind fun os =>
        (fops (s.2 ⟨0, by decide⟩) (.read (sizeOfReads [1, 1])) .success).map fun o =>
          decide (lastDev (s.2 ⟨0, by decide⟩) os = o.dev)) = some false := by decide +kernel
  obtain ⟨s, hs, hreads⟩ := Option.bind_eq_some_iff.mp heval
  obtain ⟨os, hos, hread⟩ := Option.bind_eq_some_iff.mp hreads
  obtain ⟨o, ho, hne⟩ := Option.map_eq_some_iff.mp hread
  exact of_decide_eq_false hne (h _ s.1 s.2 _ _ os o hs hos ho)

end KernelDrivers.Kbufdrv.Chardrv
