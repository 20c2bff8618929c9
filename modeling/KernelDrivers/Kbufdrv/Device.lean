import KernelDrivers.Framework.BoundedFifo
import KernelDrivers.Kernel.Basic

namespace KernelDrivers.Kbufdrv

open Framework Kernel

/-- `struct kbuf`: the allocated buffer and the number of bytes that are valid in it. -/
structure Kbuf where
  kbuf : FixedBuffer Byte SZ_512
  validlen : Nat
  deriving DecidableEq

namespace Kbuf

/-- A device after load: `kzalloc` clears the buffer and `validlen` is zero. -/
def fresh : Kbuf := ⟨FixedBuffer.filled SZ_512 0, 0⟩

/-- The bytes stored in the device, oldest first. -/
def contents (pdev : Kbuf) : List Byte := pdev.kbuf.front pdev.validlen

/-- The buffer holds its valid bytes. -/
def Bounded (pdev : Kbuf) : Prop := pdev.validlen ≤ SZ_512

theorem fresh_bounded : fresh.Bounded := Nat.zero_le _

theorem contents_length {pdev : Kbuf} (h : pdev.Bounded) :
    pdev.contents.length = pdev.validlen := pdev.kbuf.front_length h

/-- The free room of the device, as the drivers compute it. -/
theorem room_eq {pdev : Kbuf} (h : pdev.Bounded) :
    sizeSub SZ_512 pdev.validlen = SZ_512 - pdev.validlen := sizeSub_of_le h (by decide)

/-- `copy_to_user(buf, pdev->kbuf, cnt)`: its residue and the bytes it reads. -/
def copyToUser (pdev : Kbuf) (cnt : Nat) (fate : CopyFate) : Option (Nat × List Byte) :=
  (pdev.kbuf.read? 0 cnt).map fun bytes => (fate.residue cnt, bytes)

/-- `copy_from_user(pdev->kbuf + pdev->validlen, buf, cnt)` for the `cnt` bytes `bs`. -/
def copyFromUser (pdev : Kbuf) (bs : List Byte) (fate : CopyFate) : Option (Nat × Kbuf) :=
  (pdev.kbuf.write? pdev.validlen (fate.landed bs)).map fun kbuf =>
    (fate.residue bs.length, { pdev with kbuf })

/-- `memmove(pdev->kbuf, pdev->kbuf + cnt, pdev->validlen - cnt)`. -/
def shiftDown (pdev : Kbuf) (cnt : Nat) : Option Kbuf :=
  (pdev.kbuf.memmove? 0 cnt (sizeSub pdev.validlen cnt)).map fun kbuf => { pdev with kbuf }

theorem copyToUser_eq {pdev : Kbuf} {cnt : Nat} (hb : pdev.Bounded) (hc : cnt ≤ pdev.validlen)
    (fate : CopyFate) :
    pdev.copyToUser cnt fate = some (fate.residue cnt, pdev.contents.take cnt) := by
  have hr : 0 + cnt ≤ SZ_512 := by rw [Nat.zero_add]; exact Nat.le_trans hc hb
  rw [copyToUser, pdev.kbuf.read?_eq_some hr, contents, FixedBuffer.front_take,
    Nat.min_eq_left hc, FixedBuffer.slice_zero]
  rfl

/-- A copy into the free room leaves the stored bytes alone, and when it succeeds the
user's bytes follow them. -/
theorem copyFromUser_eq {pdev : Kbuf} {bs : List Byte} (hc : pdev.validlen + bs.length ≤ SZ_512)
    (fate : CopyFate) :
    ∃ pdev', pdev.copyFromUser bs fate = some (fate.residue bs.length, pdev') ∧
      pdev'.validlen = pdev.validlen ∧ pdev'.contents = pdev.contents ∧
      (fate.residue bs.length = 0 → pdev'.kbuf.slice pdev.validlen bs.length = bs) := by
  have hl : pdev.validlen + (fate.landed bs).length ≤ SZ_512 := by simpa using hc
  refine ⟨⟨pdev.kbuf.splice pdev.validlen (fate.landed bs) hl, pdev.validlen⟩, ?_, rfl, ?_, ?_⟩
  · rw [copyFromUser, pdev.kbuf.write?_eq_some hl]
    rfl
  · exact pdev.kbuf.front_splice_of_le hl (Nat.le_refl _)
  · intro h0
    have hs := pdev.kbuf.slice_splice_self hl
    rw [fate.landed_length] at hs
    exact hs.trans (CopyFate.landed_of_residue h0)

theorem shiftDown_eq {pdev : Kbuf} {cnt : Nat} (hb : pdev.Bounded) (hc : cnt ≤ pdev.validlen) :
    ∃ pdev', pdev.shiftDown cnt = some pdev' ∧ pdev'.validlen = pdev.validlen ∧
      pdev'.kbuf.front (pdev.validlen - cnt) = pdev.contents.drop cnt := by
  have hle : pdev.validlen ≤ SIZE_MAX := Nat.le_trans hb (by decide)
  obtain ⟨kbuf, hm, hf⟩ := pdev.kbuf.memmove?_down hc hb
  refine ⟨⟨kbuf, pdev.validlen⟩, ?_, rfl, hf⟩
  rw [shiftDown, sizeSub_of_le hc hle, hm]
  rfl

end Kbuf

/-- What a call does: its return value, the bytes it hands to the user, the device it
leaves and whether it got as far as its update of `validlen`. -/
structure Outcome where
  ret : Int
  out : List Byte
  dev : Kbuf
  moved : Bool

/-- `kbuf_read` from `cnt = min(cnt, pdev->validlen)` on, the same text in every driver.
There is no outcome when an access leaves the buffer. -/
def readOut (pdev : Kbuf) (cnt : Nat) (fate : CopyFate) : Option Outcome := do
  let cnt := min cnt pdev.validlen
  let (left, bytes) ← pdev.copyToUser cnt fate
  if left ≠ 0 then
    return ⟨-eio, [], pdev, false⟩
  let pdev ← pdev.shiftDown cnt
  return ⟨cnt, bytes, { pdev with validlen := sizeSub pdev.validlen cnt }, true⟩

/-- `kbuf_write` from `cnt = min(cnt, SZ_512 - pdev->validlen)` on, `buf` being the bytes
at the user's address. -/
def writeIn (pdev : Kbuf) (buf : List Byte) (fate : CopyFate) : Option Outcome := do
  let cnt := min buf.length (sizeSub SZ_512 pdev.validlen)
  let (left, pdev) ← pdev.copyFromUser (buf.take cnt) fate
  if left ≠ 0 then
    return ⟨-eio, [], pdev, false⟩
  return ⟨cnt, [], { pdev with validlen := sizeAdd pdev.validlen cnt }, true⟩

/-- Both ways `readOut` ends. -/
theorem readOut_cases {pdev : Kbuf} (hb : pdev.Bounded) (cnt : Nat) (fate : CopyFate) :
    (fate.residue (min cnt pdev.validlen) ≠ 0 ∧
      readOut pdev cnt fate = some ⟨-eio, [], pdev, false⟩) ∨
    (fate.residue (min cnt pdev.validlen) = 0 ∧
      ∃ pdev', readOut pdev cnt fate = some
          ⟨(min cnt pdev.validlen : Nat), pdev.contents.take cnt, pdev', true⟩ ∧
        pdev'.validlen = pdev.validlen - min cnt pdev.validlen ∧
        pdev'.contents = pdev.contents.drop cnt) := by
  have hle : min cnt pdev.validlen ≤ pdev.validlen := Nat.min_le_right _ _
  have hcopy := Kbuf.copyToUser_eq hb hle fate
  have htake : pdev.contents.take (min cnt pdev.validlen) = pdev.contents.take cnt := by
    rw [← Kbuf.contents_length hb, List.take_eq_take_iff]
    simp
  by_cases hres : fate.residue (min cnt pdev.validlen) = 0
  · right
    obtain ⟨pdev', hshift, hv, hf⟩ := Kbuf.shiftDown_eq hb hle
    have hmax : pdev.validlen ≤ SIZE_MAX := Nat.le_trans hb (by decide)
    have hsub : sizeSub pdev'.validlen (min cnt pdev.validlen) =
        pdev.validlen - min cnt pdev.validlen := by rw [hv, sizeSub_of_le hle hmax]
    refine ⟨hres, ⟨pdev'.kbuf, pdev.validlen - min cnt pdev.validlen⟩, ?_, rfl, ?_⟩
    · simp [readOut, hcopy, hres, hshift, hsub, htake]
    · show pdev'.kbuf.front (pdev.validlen - min cnt pdev.validlen) = _
      rw [hf, ← Kbuf.contents_length hb]
      rcases Nat.le_total cnt pdev.contents.length with h | h
      · rw [Nat.min_eq_left h]
      · rw [Nat.min_eq_right h, List.drop_length, List.drop_eq_nil_of_le h]
  · left
    exact ⟨hres, by simp [readOut, hcopy, hres]⟩

/-- Both ways `writeIn` ends. -/
theorem writeIn_cases {pdev : Kbuf} (hb : pdev.Bounded) (buf : List Byte) (fate : CopyFate) :
    ∃ pdev' : Kbuf,
      (fate.residue (min buf.length (SZ_512 - pdev.validlen)) ≠ 0 ∧
        writeIn pdev buf fate = some ⟨-eio, [], pdev', false⟩ ∧
        pdev'.validlen = pdev.validlen ∧ pdev'.contents = pdev.contents) ∨
      (fate.residue (min buf.length (SZ_512 - pdev.validlen)) = 0 ∧
        writeIn pdev buf fate = some
          ⟨(min buf.length (SZ_512 - pdev.validlen) : Nat), [], pdev', true⟩ ∧
        pdev'.validlen = pdev.validlen + min buf.length (SZ_512 - pdev.validlen) ∧
        pdev'.contents = pdev.contents ++ BoundedFifo.admitted SZ_512 pdev.contents buf) := by
  have hroom := Kbuf.room_eq hb
  have hbound : pdev.validlen ≤ SZ_512 := hb
  have hlen : (buf.take (min buf.length (SZ_512 - pdev.validlen))).length =
      min buf.length (SZ_512 - pdev.validlen) := by simp
  have htake : buf.take (min buf.length (SZ_512 - pdev.validlen)) =
      BoundedFifo.admitted SZ_512 pdev.contents buf := by
    rw [BoundedFifo.admitted, Kbuf.contents_length hb, List.take_eq_take_iff]
    omega
  have hfits : pdev.validlen + (buf.take (min buf.length (SZ_512 - pdev.validlen))).length ≤
      SZ_512 := by rw [hlen]; omega
  obtain ⟨pdev', hcopy, hv, hc, hs⟩ := Kbuf.copyFromUser_eq hfits fate
  rw [hlen] at hcopy hs
  by_cases hres : fate.residue (min buf.length (SZ_512 - pdev.validlen)) = 0
  · have hadd : sizeAdd pdev'.validlen (min buf.length (SZ_512 - pdev.validlen)) =
        pdev.validlen + min buf.length (SZ_512 - pdev.validlen) := by
      have hmax : SZ_512 ≤ SIZE_MAX := by decide
      rw [hv, sizeAdd_of_lt (by omega)]
    refine ⟨⟨pdev'.kbuf, pdev.validlen + min buf.length (SZ_512 - pdev.validlen)⟩,
      Or.inr ⟨hres, ?_, rfl, ?_⟩⟩
    · simp [writeIn, hroom, hcopy, hres, hadd]
    · show pdev'.kbuf.front (pdev.validlen + min buf.length (SZ_512 - pdev.validlen)) = _
      rw [FixedBuffer.front_add, hs hres, htake, ← hc, Kbuf.contents, hv]
  · exact ⟨pdev', Or.inl ⟨hres, by simp [writeIn, hroom, hcopy, hres], hv, hc⟩⟩

end KernelDrivers.Kbufdrv
