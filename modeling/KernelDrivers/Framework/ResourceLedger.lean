import Mathlib.Data.List.Nodup
import Mathlib.Logic.Function.Basic

namespace KernelDrivers.Framework

/-- Who holds what: the resources held, the releases made so far in order, and those among
them that released something not held. -/
structure Ledger (R : Type*) where
  held : R → Bool
  released : List R
  stray : List R

namespace Ledger

variable {R : Type*}

def empty : Ledger R := ⟨fun _ => false, [], []⟩

/-- The same holdings with no releases recorded. -/
def settled (L : Ledger R) : Ledger R := ⟨L.held, [], []⟩

/-- The ledger holds exactly the resources of a list. -/
def Holds (L : Ledger R) (rs : List R) : Prop := ∀ r, L.held r = true ↔ r ∈ rs

theorem holds_empty : (empty : Ledger R).Holds [] := by
  intro r
  simp [empty]

theorem Holds.congr {L : Ledger R} {rs rs' : List R} (h : L.Holds rs)
    (hm : ∀ r, r ∈ rs ↔ r ∈ rs') : L.Holds rs' := fun r => (h r).trans (hm r)

variable [DecidableEq R]

def acquire (L : Ledger R) (r : R) : Ledger R := { L with held := Function.update L.held r true }

def release (L : Ledger R) (r : R) : Ledger R where
  held := Function.update L.held r false
  released := L.released ++ [r]
  stray := if L.held r then L.stray else L.stray ++ [r]

def releaseAll (L : Ledger R) (rs : List R) : Ledger R := rs.foldl release L

theorem Holds.acquire {L : Ledger R} {rs : List R} (h : L.Holds rs) (r : R) :
    (L.acquire r).Holds (rs ++ [r]) := by
  intro q
  by_cases hq : q = r
  · subst hq
    simp [Ledger.acquire]
  · simp [Ledger.acquire, h q, hq]

@[simp] theorem release_released (L : Ledger R) (r : R) :
    (L.release r).released = L.released ++ [r] := rfl

theorem releaseAll_append (L : Ledger R) (rs ts : List R) :
    L.releaseAll (rs ++ ts) = (L.releaseAll rs).releaseAll ts := List.foldl_append

theorem releaseAll_held (L : Ledger R) (ts : List R) (r : R) :
    (L.releaseAll ts).held r = true ↔ L.held r = true ∧ r ∉ ts := by
  induction ts generalizing L with
  | nil => exact (and_iff_left List.not_mem_nil).symm
  | cons t ts ih =>
    have hrelease : (L.release t).held r = true ↔ L.held r = true ∧ r ≠ t := by
      by_cases hr : r = t
      · subst hr
        simp [Ledger.release]
      · simp [Ledger.release, hr]
    rw [List.mem_cons, not_or, ← and_assoc, ← hrelease]
    exact ih (L.release t)

theorem releaseAll_released (L : Ledger R) (ts : List R) :
    (L.releaseAll ts).released = L.released ++ ts := by
  induction ts generalizing L with
  | nil => exact (List.append_nil _).symm
  | cons t ts ih => exact (ih (L.release t)).trans (by simp)

/-- None of some distinct resources is released unheld when all of them are held. -/
theorem releaseAll_stray {L : Ledger R} {ts : List R} (hn : ts.Nodup)
    (hheld : ∀ t ∈ ts, L.held t = true) : (L.releaseAll ts).stray = L.stray := by
  induction ts generalizing L with
  | nil => rfl
  | cons t ts ih =>
    obtain ⟨ht, hts⟩ := List.nodup_cons.mp hn
    have hrest : ∀ r ∈ ts, (L.release t).held r = true := by
      intro r hr
      have hne : r ≠ t := fun h => ht (h ▸ hr)
      simp [Ledger.release, hne, hheld r (List.mem_cons_of_mem t hr)]
    have hfirst : (L.release t).stray = L.stray := if_pos (hheld t List.mem_cons_self)
    exact (ih hts hrest).trans hfirst

/-- Releasing distinct held resources gives each back once and none unheld. -/
theorem Holds.releaseAll {L : Ledger R} {rs ts : List R} (h : L.Holds (rs ++ ts))
    (hn : ts.Nodup) (hd : ∀ r ∈ ts, r ∉ rs) :
    (L.releaseAll ts).Holds rs ∧ (L.releaseAll ts).stray = L.stray ∧
      (L.releaseAll ts).released = L.released ++ ts := by
  refine ⟨?_, ?_, L.releaseAll_released ts⟩
  · intro r
    rw [L.releaseAll_held ts r, h r, List.mem_append]
    constructor
    · rintro ⟨hr | hr, hnot⟩
      · exact hr
      · exact absurd hr hnot
    · exact fun hr => ⟨Or.inl hr, fun hts => hd r hts hr⟩
  · exact releaseAll_stray hn fun t ht => (h t).mpr (List.mem_append_right rs ht)

theorem Holds.release {L : Ledger R} {rs : List R} {r : R} (h : L.Holds (rs ++ [r]))
    (hr : r ∉ rs) : (L.release r).Holds rs ∧ (L.release r).stray = L.stray := by
  obtain ⟨hholds, hstray, -⟩ := h.releaseAll (List.nodup_singleton r) (by simpa using hr)
  exact ⟨hholds, hstray⟩

/-- Releasing all that is held, in any order. -/
theorem Holds.releasePerm {L : Ledger R} {rs ts : List R} (h : L.Holds rs) (hn : rs.Nodup)
    (hp : ts.Perm rs) :
    (L.releaseAll ts).Holds [] ∧ (L.releaseAll ts).stray = L.stray ∧
      (L.releaseAll ts).released = L.released ++ ts := by
  apply Holds.releaseAll
  · exact h.congr fun r => hp.mem_iff.symm
  · exact hp.nodup_iff.mpr hn
  · exact fun r _ => List.not_mem_nil

def acquireAll (L : Ledger R) (rs : List R) : Ledger R := rs.foldl acquire L

theorem Holds.acquireAll {L : Ledger R} {rs : List R} (h : L.Holds rs) (ts : List R) :
    (L.acquireAll ts).Holds (rs ++ ts) ∧ (L.acquireAll ts).stray = L.stray ∧
      (L.acquireAll ts).released = L.released := by
  induction ts generalizing L rs with
  | nil => exact ⟨by rwa [List.append_nil], rfl, rfl⟩
  | cons t ts ih =>
    obtain ⟨hh, hs, hr⟩ := ih (h.acquire t)
    rw [List.append_assoc] at hh
    exact ⟨hh, hs, hr⟩

end Ledger

end KernelDrivers.Framework
