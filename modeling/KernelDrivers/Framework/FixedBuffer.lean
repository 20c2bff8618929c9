import Mathlib.Data.List.Basic

namespace KernelDrivers.Framework

/-- A memory area of exactly `n` cells. -/
structure FixedBuffer (α : Type*) (n : Nat) where
  cells : List α
  size : cells.length = n
  deriving DecidableEq

namespace FixedBuffer

variable {α : Type*} {n : Nat} (b : FixedBuffer α n)

def filled (n : Nat) (x : α) : FixedBuffer α n := ⟨List.replicate n x, List.length_replicate⟩

def slice (off len : Nat) : List α := (b.cells.drop off).take len

/-- The live part of a buffer that is filled from its start. -/
def front (len : Nat) : List α := b.cells.take len

def splice (off : Nat) (xs : List α) (h : off + xs.length ≤ n) : FixedBuffer α n where
  cells := b.cells.take off ++ xs ++ b.cells.drop (off + xs.length)
  size := by simp [b.size]; omega

/-- A read of `len` cells; there is no result when it leaves the area. -/
def read? (off len : Nat) : Option (List α) :=
  if off + len ≤ n then some (b.slice off len) else none

/-- A write of `xs`; there is no result when it leaves the area. -/
def write? (off : Nat) (xs : List α) : Option (FixedBuffer α n) :=
  if h : off + xs.length ≤ n then some (b.splice off xs h) else none

/-- The overlapping copy: the source cells are the ones from before the call. -/
def memmove? (dst src len : Nat) : Option (FixedBuffer α n) :=
  (b.read? src len).bind (b.write? dst)

theorem slice_length {off len : Nat} (h : off + len ≤ n) : (b.slice off len).length = len := by
  simp [slice, b.size]; omega

theorem front_length {len : Nat} (h : len ≤ n) : (b.front len).length = len := by
  simp [front, b.size]; omega

theorem front_take (len k : Nat) : (b.front len).take k = b.front (min k len) := by
  simp [front, List.take_take]

@[simp] theorem slice_zero (len : Nat) : b.slice 0 len = b.front len := by simp [slice, front]

theorem slice_eq_drop_front (off len : Nat) : b.slice off len = (b.front (off + len)).drop off := by
  simp [slice, front, List.drop_take]

theorem front_add (off len : Nat) : b.front (off + len) = b.front off ++ b.slice off len := by
  simp [front, slice, List.take_add]

theorem front_splice_of_le {off k : Nat} {xs : List α} (h : off + xs.length ≤ n) (hk : k ≤ off) :
    (b.splice off xs h).front k = b.front k := by
  have hl : k ≤ (b.cells.take off).length := by simp [b.size]; omega
  simp [front, splice, List.append_assoc, List.take_append_of_le_length hl, List.take_take,
    Nat.min_eq_left hk]

theorem front_splice_append {off : Nat} {xs : List α} (h : off + xs.length ≤ n) :
    (b.splice off xs h).front (off + xs.length) = b.front off ++ xs := by
  have hl : (b.cells.take off ++ xs).length = off + xs.length := by simp [b.size]; omega
  have ht : (b.cells.take off ++ xs ++ b.cells.drop (off + xs.length)).take
      (b.cells.take off ++ xs).length = b.cells.take off ++ xs := List.take_left
  rw [hl] at ht
  exact ht

theorem slice_splice_self {off : Nat} {xs : List α} (h : off + xs.length ≤ n) :
    (b.splice off xs h).slice off xs.length = xs := by
  have hl : (b.front off).length = off := b.front_length (by omega)
  have hd : (b.front off ++ xs).drop (b.front off).length = xs := List.drop_left
  rw [hl] at hd
  rw [slice_eq_drop_front, front_splice_append]
  exact hd

theorem read?_eq_some {off len : Nat} (h : off + len ≤ n) :
    b.read? off len = some (b.slice off len) := if_pos h

theorem write?_eq_some {off : Nat} {xs : List α} (h : off + xs.length ≤ n) :
    b.write? off xs = some (b.splice off xs h) := dif_pos h

theorem write?_nil {off : Nat} (h : off ≤ n) : b.write? off [] = some b := by
  rw [write?_eq_some b (show off + ([] : List α).length ≤ n from h)]
  cases b
  simp [splice]

/-- Two writes side by side are one write. -/
theorem write?_write? {off : Nat} {xs : List α} {b' : FixedBuffer α n}
    (h : b.write? off xs = some b') (ys : List α) :
    b'.write? (off + xs.length) ys = b.write? off (xs ++ ys) := by
  have hlen : (xs ++ ys).length = xs.length + ys.length := List.length_append
  by_cases hx : off + xs.length ≤ n
  · rw [write?_eq_some b hx, Option.some_inj] at h
    subst h
    by_cases hy : off + xs.length + ys.length ≤ n
    · have hxy : off + (xs ++ ys).length ≤ n := by omega
      rw [write?_eq_some _ hy, write?_eq_some b hxy]
      have hl : (b.cells.take off ++ xs).length = off + xs.length := by simp [b.size]; omega
      have htake : (b.cells.take off ++ xs ++ b.cells.drop (off + xs.length)).take
          (off + xs.length) = b.cells.take off ++ xs := by rw [← hl, List.take_left]
      have hdrop : (b.cells.take off ++ xs ++ b.cells.drop (off + xs.length)).drop
          (off + xs.length + ys.length) = b.cells.drop (off + (xs ++ ys).length) := by
        rw [← List.drop_drop, ← hl, List.drop_left, hl, List.drop_drop, hlen, Nat.add_assoc]
      simp only [splice, htake, hdrop]
      simp only [List.append_assoc]
    · rw [write?, dif_neg hy, write?, dif_neg (by omega)]
  · rw [write?, dif_neg hx] at h
    exact absurd h.symm (Option.some_ne_none b')

theorem memmove?_eq_some {dst src len : Nat} (hs : src + len ≤ n)
    (hd : dst + (b.slice src len).length ≤ n) :
    b.memmove? dst src len = some (b.splice dst (b.slice src len) hd) := by
  rw [memmove?, read?_eq_some b hs, Option.bind_some, write?_eq_some b hd]

/-- Moving the live part down by `k` cells drops its first `k` cells. -/
theorem memmove?_down {len k : Nat} (hk : k ≤ len) (hn : len ≤ n) :
    ∃ b', b.memmove? 0 k (len - k) = some b' ∧ b'.front (len - k) = (b.front len).drop k := by
  have hs : k + (len - k) ≤ n := by omega
  have hl : (b.slice k (len - k)).length = len - k := b.slice_length hs
  have hd : 0 + (b.slice k (len - k)).length ≤ n := by omega
  refine ⟨_, b.memmove?_eq_some hs hd, ?_⟩
  have hf := b.front_splice_append hd
  rw [hl, Nat.zero_add] at hf
  rw [hf, slice_eq_drop_front, show k + (len - k) = len by omega]
  simp [front]

end FixedBuffer

end KernelDrivers.Framework
