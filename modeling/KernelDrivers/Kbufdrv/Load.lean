import KernelDrivers.Framework.Unwinding
import KernelDrivers.Kernel.Basic

namespace KernelDrivers.Kbufdrv.Load

open Framework Kernel

/-- How every acquisition of a load would end: `none` and `true` stand for success. -/
structure Fates where
  region : Option Err
  cls : Option Err
  kbuf : Nat → Bool
  cdev : Nat → Option Err
  device : Nat → Option Err
  proc : Nat → Bool

inductive Res where
  | region
  | cls
  | kbuf (i : Nat)
  | cdev (i : Nat)
  | device (i : Nat)
  | proc (i : Nat)
  deriving DecidableEq

/-- The locals of `kbuf_init`: `ret` and what the module holds. -/
structure Init where
  ret : Int
  ledger : Ledger Res

namespace Init

def acquire (s : Init) (r : Res) : Init := { s with ledger := s.ledger.acquire r }

def release (s : Init) (r : Res) : Init := { s with ledger := s.ledger.release r }

def releaseAll (s : Init) (rs : List Res) : Init := { s with ledger := s.ledger.releaseAll rs }

end Init

/-- How one round of the loop over the devices ends. -/
inductive Round where
  | next (s : Init)
  | error1 (s : Init)

/-- A driver's loop body, and its undoing of one complete device in source order. -/
structure Driver where
  body : Fates → Nat → Init → Round
  undo : Nat → List Res

/-- `kbufchardrv`: the body of the `for` loop. -/
def chardrvBody (f : Fates) (i : Nat) (s : Init) : Round :=
  if f.kbuf i = false then .error1 { s with ret := -enomem }
  else
    let s := s.acquire (.kbuf i)
    let s := { s with ret := status (f.cdev i) }
    if s.ret < 0 then .error1 (s.release (.kbuf i))
    else
      let s := s.acquire (.cdev i)
      -- `ret` keeps the zero of `cdev_add` here
      if (f.device i).isSome then .error1 ((s.release (.cdev i)).release (.kbuf i))
      else .next (s.acquire (.device i))

/-- `kbufchardrv_poll`: the body of the `for` loop. -/
def pollBody (f : Fates) (i : Nat) (s : Init) : Round :=
  match chardrvBody f i s with
  | .error1 s => .error1 s
  | .next s =>
    if f.proc i = false then
      .error1 (((s.release (.cdev i)).release (.kbuf i)).release (.device i))
    else .next (s.acquire (.proc i))

def chardrv : Driver := ⟨chardrvBody, fun i => [.device i, .kbuf i, .cdev i]⟩

def poll : Driver := ⟨pollBody, fun i => [.device i, .kbuf i, .cdev i, .proc i]⟩

variable (D : Driver) (f : Fates)

/-- `while (i--)`. -/
def unwind : Nat → Init → Init
  | 0, s => s
  | i + 1, s => unwind i (s.releaseAll (D.undo i))

/-- The `for` loop with `left` rounds to go, and what follows it. -/
def loop : Nat → Nat → Init → Init
  | 0, _, s => { s with ret := 0 }
  | left + 1, i, s =>
    match D.body f i s with
    | .next s => loop left (i + 1) s
    | .error1 s => ((unwind D i s).release .cls).release .region

/-- `kbuf_init` for `n` devices; `major` is the static variable, zero unless a number was
fixed. -/
def kbufInit (major n : Nat) : Init :=
  let s : Init := ⟨status f.region, Ledger.empty⟩
  if (if major = 0 then s.ret ≠ 0 else s.ret < 0) then s
  else
    let s := s.acquire .region
    match f.cls with
    | some e => ({ s with ret := e.code }).release .region
    | none => loop D f n 0 (s.acquire .cls)

def kbufExit (n : Nat) (L : Ledger Res) : Ledger Res :=
  (((unwind D n ⟨0, L⟩).release .cls).release .region).ledger

/-- All that a complete load of `n` devices holds. -/
def resources (n : Nat) : List Res := [.region, .cls] ++ (List.range n).flatMap D.undo

/-- The device a resource belongs to. -/
def Res.index : Res → Option Nat
  | .region => none
  | .cls => none
  | .kbuf i => some i
  | .cdev i => some i
  | .device i => some i
  | .proc i => some i

/-- What a driver's loop body does: a round whose acquisitions all succeed ends with them
held; any other gives back its own and names the error, unless it is `unreported`. -/
structure RoundSpec (D : Driver) (complete unreported : Fates → Nat → Prop) : Prop where
  nodup : ∀ i, (D.undo i).Nodup
  own : ∀ i, ∀ r ∈ D.undo i, r.index = some i
  exclusive : ∀ f i, complete f i → ¬ unreported f i
  round : ∀ f i s rs, s.ledger.Holds rs → (∀ r ∈ D.undo i, r ∉ rs) →
    (complete f i ∧ ∃ s', D.body f i s = .next s' ∧ s'.ledger.Holds (rs ++ D.undo i) ∧
      s'.ledger.stray = s.ledger.stray) ∨
    (¬ complete f i ∧ ∃ s', D.body f i s = .error1 s' ∧ s'.ledger.Holds rs ∧
      s'.ledger.stray = s.ledger.stray ∧
      ((unreported f i ∧ s'.ret = 0) ∨ (¬ unreported f i ∧ s'.ret < 0)))

/-- `kbufchardrv`: all acquisitions for device `i` succeed. -/
def chardrvComplete (f : Fates) (i : Nat) : Prop :=
  f.kbuf i = true ∧ f.cdev i = none ∧ f.device i = none

/-- `kbufchardrv`: of the acquisitions for device `i`, `device_create` is the first to fail. -/
def chardrvUnreported (f : Fates) (i : Nat) : Prop :=
  f.kbuf i = true ∧ f.cdev i = none ∧ f.device i ≠ none

def pollComplete (f : Fates) (i : Nat) : Prop := chardrvComplete f i ∧ f.proc i = true

/-- `kbufchardrv_poll`: of the acquisitions for device `i`, `device_create` or
`create_proc_read_entry` is the first to fail. -/
def pollUnreported (f : Fates) (i : Nat) : Prop :=
  chardrvUnreported f i ∨ (chardrvComplete f i ∧ f.proc i = false)

theorem status_of_some (e : Err) : status (some e) < 0 := e.neg

theorem chardrvBody_cases (f : Fates) (i : Nat) (s : Init) {rs : List Res}
    (hs : s.ledger.Holds rs) (hk : .kbuf i ∉ rs) (hc : .cdev i ∉ rs) :
    (chardrvComplete f i ∧
      ∃ s', chardrvBody f i s = .next s' ∧ s'.ret = 0 ∧
        s'.ledger.Holds (rs ++ [.kbuf i] ++ [.cdev i] ++ [.device i]) ∧
        s'.ledger.stray = s.ledger.stray) ∨
    (¬ chardrvComplete f i ∧
      ∃ s', chardrvBody f i s = .error1 s' ∧ s'.ledger.Holds rs ∧
        s'.ledger.stray = s.ledger.stray ∧
        ((chardrvUnreported f i ∧ s'.ret = 0) ∨ (¬ chardrvUnreported f i ∧ s'.ret < 0))) := by
  unfold chardrvComplete chardrvUnreported
  have hkbuf := hs.acquire (.kbuf i)
  have hcdev := hkbuf.acquire (.cdev i)
  have hdevice := hcdev.acquire (.device i)
  cases hfk : f.kbuf i with
  | false =>
    right
    refine ⟨by simp, { s with ret := -enomem }, by simp [chardrvBody, hfk], hs, rfl, Or.inr ?_⟩
    exact ⟨by simp, by change -enomem < 0; decide⟩
  | true =>
    have hc' : .cdev i ∉ rs ++ [.kbuf i] := by simp [hc]
    let held := s.ledger.acquire (.kbuf i)
    cases hfc : f.cdev i with
    | some e =>
      right
      obtain ⟨hh, hstray⟩ := hkbuf.release hk
      have hb : chardrvBody f i s = .error1 ⟨e.code, held.release (.kbuf i)⟩ := by
        simp [chardrvBody, hfk, hfc, status_of_some]
        rfl
      exact ⟨by simp, _, hb, hh, hstray, Or.inr ⟨by simp, e.neg⟩⟩
    | none =>
      cases hfd : f.device i with
      | some e =>
        right
        obtain ⟨hh, hstray⟩ := hcdev.release hc'
        obtain ⟨hh', hstray'⟩ := hh.release hk
        have hb : chardrvBody f i s = .error1
            ⟨0, ((held.acquire (.cdev i)).release (.cdev i)).release (.kbuf i)⟩ := by
          simp [chardrvBody, hfk, hfc, hfd, status]
          rfl
        exact ⟨by simp, _, hb, hh', hstray'.trans hstray, Or.inl ⟨by simp, rfl⟩⟩
      | none =>
        left
        have hb : chardrvBody f i s = .next
            ⟨0, (held.acquire (.cdev i)).acquire (.device i)⟩ := by
          simp [chardrvBody, hfk, hfc, hfd, status]
          rfl
        exact ⟨by simp, _, hb, rfl, hdevice, rfl⟩

theorem chardrv_round : RoundSpec chardrv chardrvComplete chardrvUnreported where
  nodup i := by simp [chardrv]
  own i r hr := by
    simp only [chardrv, List.mem_cons, List.not_mem_nil, or_false] at hr
    rcases hr with rfl | rfl | rfl <;> rfl
  exclusive f i hok hu := hu.2.2 hok.2.2
  round f i s rs hs hfresh := by
    have hk : .kbuf i ∉ rs := hfresh _ (by simp [chardrv])
    have hc : .cdev i ∉ rs := hfresh _ (by simp [chardrv])
    rcases chardrvBody_cases f i s hs hk hc with ⟨hok, s', hb, -, hh, hst⟩ | h
    · refine Or.inl ⟨hok, s', hb, hh.congr ?_, hst⟩
      intro r
      simp only [chardrv, List.mem_append, List.mem_cons, List.not_mem_nil, or_false]
      tauto
    · exact Or.inr h

theorem poll_round : RoundSpec poll pollComplete pollUnreported where
  nodup i := by simp [poll]
  own i r hr := by
    simp only [poll, List.mem_cons, List.not_mem_nil, or_false] at hr
    rcases hr with rfl | rfl | rfl | rfl <;> rfl
  exclusive f i hok hu := by
    rcases hu with hu | hu
    · exact hu.2.2 hok.1.2.2
    · exact absurd hok.2 (by simp [hu.2])
  round f i s rs hs hfresh := by
    have hk : .kbuf i ∉ rs := hfresh _ (by simp [poll])
    have hc : .cdev i ∉ rs := hfresh _ (by simp [poll])
    have hd : .device i ∉ rs := hfresh _ (by simp [poll])
    rcases chardrvBody_cases f i s hs hk hc with ⟨hok, s', hb, hret, hh, hst⟩ | h
    · cases hp : f.proc i with
      | true =>
        refine Or.inl ⟨⟨hok, hp⟩, s'.acquire (.proc i), by simp [poll, pollBody, hb, hp],
          (hh.acquire (.proc i)).congr ?_, hst⟩
        intro r
        simp only [poll, List.mem_append, List.mem_cons, List.not_mem_nil, or_false]
        tauto
      | false =>
        -- the three release calls take back what the round had acquired, in another order
        have h1 : s'.ledger.Holds (rs ++ [.kbuf i] ++ [.device i] ++ [.cdev i]) := hh.congr (by
          intro r
          simp only [List.mem_append, List.mem_cons, List.not_mem_nil, or_false]
          tauto)
        obtain ⟨h2, hst2⟩ := h1.release (by simp [hc])
        have h3 : (s'.ledger.release (.cdev i)).Holds (rs ++ [.device i] ++ [.kbuf i]) :=
          h2.congr (by
            intro r
            simp only [List.mem_append, List.mem_cons, List.not_mem_nil, or_false]
            tauto)
        obtain ⟨h4, hst4⟩ := h3.release (by simp [hk])
        obtain ⟨h5, hst5⟩ := h4.release hd
        have hb' : pollBody f i s = .error1
            (((s'.release (.cdev i)).release (.kbuf i)).release (.device i)) := by
          simp [pollBody, hb, hp]
        have hno : ¬ pollComplete f i := fun h => absurd h.2 (by simp [hp])
        exact Or.inr ⟨hno, _, hb', h5, hst5.trans (hst4.trans (hst2.trans hst)),
          Or.inl ⟨Or.inr ⟨hok, hp⟩, hret⟩⟩
    · obtain ⟨hno, s', hb, hh, hst, hend⟩ := h
      refine Or.inr ⟨fun h => hno h.1, s', by simp [poll, pollBody, hb], hh, hst, ?_⟩
      rcases hend with ⟨hu, hret⟩ | ⟨hu, hret⟩
      · exact Or.inl ⟨Or.inl hu, hret⟩
      · exact Or.inr ⟨fun h => h.elim hu (fun h => hno h.1), hret⟩

theorem resources_succ (k : Nat) : resources D (k + 1) = resources D k ++ D.undo k := by
  simp [resources, List.range_succ]

theorem unwind_eq (k : Nat) (s : Init) :
    unwind D k s = s.releaseAll (Unwinding.teardown D.undo k) := by
  induction k generalizing s with
  | zero => rfl
  | succ k ih =>
    rw [unwind, ih, Unwinding.teardown]
    simp only [Init.releaseAll, Ledger.releaseAll, List.foldl_append]

theorem mem_resources {D : Driver} {k : Nat} {r : Res} :
    r ∈ resources D k ↔ r = .region ∨ r = .cls ∨ ∃ i < k, r ∈ D.undo i := by
  simp [resources]

namespace RoundSpec

variable {D : Driver} {complete unreported : Fates → Nat → Prop}
variable (S : RoundSpec D complete unreported)

include S

theorem undo_fresh (k : Nat) : ∀ r ∈ D.undo k, r ∉ resources D k := by
  intro r hr hm
  have hk := S.own k r hr
  rcases mem_resources.mp hm with rfl | rfl | ⟨i, hi, hri⟩
  · simp [Res.index] at hk
  · simp [Res.index] at hk
  · rw [S.own i r hri, Option.some.injEq] at hk
    omega

theorem resources_nodup (k : Nat) : (resources D k).Nodup := by
  induction k with
  | zero => simp [resources]
  | succ k ih =>
    rw [resources_succ]
    refine List.nodup_append.mpr ⟨ih, S.nodup k, ?_⟩
    rintro r hr q hq rfl
    exact S.undo_fresh k r hq hr

/-- Undoing `k` complete devices gives back all of theirs, each once. -/
theorem unwind_spec (k : Nat) (s : Init) (hs : s.ledger.Holds (resources D k)) :
    (unwind D k s).ret = s.ret ∧ (unwind D k s).ledger.Holds (resources D 0) ∧
      (unwind D k s).ledger.stray = s.ledger.stray ∧
      ∃ gone, (unwind D k s).ledger.released = s.ledger.released ++ gone ∧
        (resources D 0 ++ gone).Perm (resources D k) := by
  have hperm := Unwinding.teardown_perm D.undo k
  have hall : (resources D 0 ++ Unwinding.teardown D.undo k).Perm (resources D k) :=
    hperm.append_left [Res.region, Res.cls]
  obtain ⟨-, hnodup, hdisjoint⟩ := List.nodup_append.mp (hall.nodup_iff.mpr (S.resources_nodup k))
  have hfresh : ∀ r ∈ Unwinding.teardown D.undo k, r ∉ resources D 0 :=
    fun r hr h0 => hdisjoint r h0 r hr rfl
  obtain ⟨hh, hst, hrel⟩ := (hs.congr fun r => hall.mem_iff.symm).releaseAll hnodup hfresh
  rw [unwind_eq]
  exact ⟨rfl, hh, hst, Unwinding.teardown D.undo k, hrel, hall⟩

/-- What error paths and unload do from `k` complete devices on: everything goes back. -/
theorem teardown_spec (k : Nat) (s : Init) (hs : s.ledger.Holds (resources D k)) :
    (((unwind D k s).release .cls).release .region).ret = s.ret ∧
      (((unwind D k s).release .cls).release .region).ledger.Holds [] ∧
      (((unwind D k s).release .cls).release .region).ledger.stray = s.ledger.stray ∧
      ∃ gone, (((unwind D k s).release .cls).release .region).ledger.released =
        s.ledger.released ++ gone ∧ gone.Perm (resources D k) := by
  obtain ⟨hret, hh, hst, gone, hgone, hperm⟩ := S.unwind_spec k s hs
  have h0 : (unwind D k s).ledger.Holds (([] ++ [.region]) ++ [.cls]) := hh
  obtain ⟨h1, hst1⟩ := h0.release (by simp)
  obtain ⟨h2, hst2⟩ := h1.release (by simp)
  refine ⟨hret, h2, hst2.trans (hst1.trans hst), gone ++ [.cls, .region], ?_, ?_⟩
  · simp [Init.release, hgone]
  · have hrev : [Res.cls, Res.region].Perm (resources D 0) := List.Perm.swap _ _ _
    exact ((hrev.append_left gone).trans List.perm_append_comm).trans hperm

end RoundSpec

/-- Every acquisition of the load succeeds. -/
def AllSucceed (complete : Fates → Nat → Prop) (n : Nat) : Prop :=
  f.region = none ∧ f.cls = none ∧ ∀ i < n, complete f i

/-- The first acquisition of the load that fails is an unreported one. -/
def UnreportedFirst (complete unreported : Fates → Nat → Prop) (n : Nat) : Prop :=
  f.region = none ∧ f.cls = none ∧ ∃ i < n, (∀ j < i, complete f j) ∧ unreported f i

/-- The three ways a load ends. -/
inductive Ending (D : Driver) (complete unreported : Fates → Nat → Prop) (n : Nat) (s : Init) :
    Prop where
  | loaded (all : AllSucceed f complete n) (ret : s.ret = 0)
      (held : s.ledger.Holds (resources D n)) (stray : s.ledger.stray = [])
  | silent (first : UnreportedFirst f complete unreported n) (ret : s.ret = 0)
      (held : s.ledger.Holds []) (stray : s.ledger.stray = [])
  | failed (some : ¬ AllSucceed f complete n)
      (reported : ¬ UnreportedFirst f complete unreported n) (ret : s.ret < 0)
      (held : s.ledger.Holds []) (stray : s.ledger.stray = [])

variable {D : Driver} {complete unreported : Fates → Nat → Prop} {f : Fates} {n : Nat}
variable (S : RoundSpec D complete unreported)

include S

theorem UnreportedFirst.not_all (h : UnreportedFirst f complete unreported n) :
    ¬ AllSucceed f complete n := by
  rintro ⟨-, -, hall⟩
  obtain ⟨-, -, i, hi, -, hu⟩ := h
  exact S.exclusive f i (hall i hi) hu

/-- The loop, entered with `i` complete devices. -/
theorem loop_ending (hr : f.region = none) (hc : f.cls = none) (left i : Nat)
    (s : Init) (hn : i + left = n) (hdone : ∀ j < i, complete f j)
    (hs : s.ledger.Holds (resources D i)) (hst : s.ledger.stray = []) :
    Ending f D complete unreported n (loop D f left i s) := by
  induction left generalizing i s with
  | zero =>
    obtain rfl : i = n := by omega
    exact .loaded ⟨hr, hc, hdone⟩ rfl hs hst
  | succ left ih =>
    rcases S.round f i s _ hs (S.undo_fresh i) with
      ⟨hok, s', hb, hh, hst'⟩ | ⟨hno, s', hb, hh, hst', hend⟩
    · have hdone' : ∀ j < i + 1, complete f j := by
        intro j hj
        rcases Nat.lt_succ_iff_lt_or_eq.mp hj with h | rfl
        · exact hdone j h
        · exact hok
      simp only [loop, hb]
      exact ih (i + 1) s' (by omega) hdone' (by rwa [resources_succ]) (hst'.trans hst)
    · obtain ⟨hret, hheld, hstray, -⟩ := S.teardown_spec i s' hh
      have hst0 := hstray.trans (hst'.trans hst)
      have hin : i < n := by omega
      simp only [loop, hb]
      rcases hend with ⟨hu, h0⟩ | ⟨hu, hneg⟩
      · exact .silent ⟨hr, hc, i, hin, hdone, hu⟩ (hret.trans h0) hheld hst0
      · refine .failed (fun hall => hno (hall.2.2 i hin)) ?_ (hret.symm ▸ hneg) hheld hst0
        rintro ⟨-, -, k, hk, hbefore, hku⟩
        -- the first round that is not complete is this one
        rcases Nat.lt_trichotomy k i with h | rfl | h
        · exact S.exclusive f k (hdone k h) hku
        · exact hu hku
        · exact hno (hbefore i h)

theorem kbufInit_ending (f : Fates) (major n : Nat) :
    Ending f D complete unreported n (kbufInit D f major n) := by
  have hfirst := (Ledger.holds_empty (R := Res)).acquire .region
  cases hr : f.region with
  | some e =>
    have hret : (kbufInit D f major n) = ⟨e.code, Ledger.empty⟩ := by
      have hneg := e.neg
      have hne : e.code ≠ 0 := by omega
      by_cases hm : major = 0 <;> simp [kbufInit, hr, status, hm, hne, hneg]
    rw [hret]
    exact .failed (by simp [AllSucceed, hr]) (by simp [UnreportedFirst, hr]) e.neg
      Ledger.holds_empty rfl
  | none =>
    cases hc : f.cls with
    | some e =>
      have hret : (kbufInit D f major n) =
          ⟨e.code, (Ledger.empty.acquire Res.region).release .region⟩ := by
        by_cases hm : major = 0 <;> simp [kbufInit, hr, hc, status, hm] <;> rfl
      obtain ⟨hh, hst⟩ := hfirst.release (by simp)
      rw [hret]
      exact .failed (by simp [AllSucceed, hc]) (by simp [UnreportedFirst, hc]) e.neg hh hst
    | none =>
      have hret : (kbufInit D f major n) =
          loop D f n 0 ⟨0, (Ledger.empty.acquire Res.region).acquire .cls⟩ := by
        by_cases hm : major = 0 <;> simp [kbufInit, hr, hc, status, hm] <;> rfl
      have hboth := hfirst.acquire .cls
      rw [hret]
      exact loop_ending S hr hc n 0 _ (Nat.zero_add n) (by omega) hboth rfl

/-- What load and unload owe for one assignment of outcomes to the acquisitions. -/
structure LoadSpec (D : Driver) (complete : Fates → Nat → Prop) (f : Fates) (major n : Nat) :
    Prop where
  zeroIff : (kbufInit D f major n).ret = 0 ↔ AllSucceed f complete n
  loaded : AllSucceed f complete n → (kbufInit D f major n).ledger.Holds (resources D n)
  failed : ¬ AllSucceed f complete n →
    (kbufInit D f major n).ret < 0 ∧ (kbufInit D f major n).ledger.Holds []
  unloaded : (kbufInit D f major n).ret = 0 →
    (kbufExit D n (kbufInit D f major n).ledger.settled).stray = [] ∧
      ∀ r, (kbufExit D n (kbufInit D f major n).ledger.settled).released.count r =
        if r ∈ resources D n then 1 else 0

/-- Unload after a complete load releases each resource once. -/
theorem kbufExit_spec {L : Ledger Res} (hL : L.Holds (resources D n)) :
    (kbufExit D n L.settled).stray = [] ∧
      ∀ r, (kbufExit D n L.settled).released.count r = if r ∈ resources D n then 1 else 0 := by
  obtain ⟨-, -, hst, gone, hgone, hperm⟩ := S.teardown_spec n ⟨0, L.settled⟩ hL
  refine ⟨hst, ?_⟩
  intro r
  have hcount : (kbufExit D n L.settled).released = gone := hgone
  rw [hcount, hperm.count_eq]
  exact (S.resources_nodup n).count

theorem loadSpec_iff (f : Fates) (major n : Nat) :
    LoadSpec D complete f major n ↔ ¬ UnreportedFirst f complete unreported n := by
  constructor
  · intro h hu
    rcases kbufInit_ending S f major n with ⟨hall, -⟩ | ⟨-, hret⟩ | ⟨-, hrep⟩
    · exact UnreportedFirst.not_all S hu hall
    · exact UnreportedFirst.not_all S hu (h.zeroIff.mp hret)
    · exact hrep hu
  · intro hu
    rcases kbufInit_ending S f major n with ⟨hall, hret, hh, -⟩ | ⟨h, -⟩ | ⟨hno, -, hret, hh, -⟩
    · exact ⟨iff_of_true hret hall, fun _ => hh, fun h => absurd hall h,
        fun _ => kbufExit_spec S hh⟩
    · exact absurd h hu
    · have hne : (kbufInit D f major n).ret ≠ 0 := by omega
      exact ⟨iff_of_false hne hno, fun h => absurd h hno, fun _ => ⟨hret, hh⟩,
        fun h => absurd h hne⟩

omit S

/-- Load and unload keep their ledger exactly when the first acquisition to fail, if any, is
not a `device_create` and, in the polling driver, not a `create_proc_read_entry`. -/
theorem load_ledger_iff (f : Fates) (major n : Nat) :
    (LoadSpec chardrv chardrvComplete f major n ↔
      ¬ UnreportedFirst f chardrvComplete chardrvUnreported n) ∧
    (LoadSpec poll pollComplete f major n ↔
      ¬ UnreportedFirst f pollComplete pollUnreported n) :=
  ⟨loadSpec_iff chardrv_round f major n, loadSpec_iff poll_round f major n⟩

/-- All acquisitions succeed but the device node and the proc entry of device 3. -/
def noDevice3 : Fates where
  region := none
  cls := none
  kbuf _ := true
  cdev _ := none
  device i := if i = 3 then some ⟨-enomem, by decide⟩ else none
  proc _ := true

def noProc3 : Fates := { noDevice3 with device := fun _ => none, proc := fun i => i != 3 }

/-- A load of 16 devices that cannot create the fourth device node, or proc entry, returns 0,
holds nothing, and is followed by an unload that releases what is not held. -/
theorem load_reports_success_without_device :
    (¬ LoadSpec chardrv chardrvComplete noDevice3 0 16 ∧
      (kbufExit chardrv 16 (kbufInit chardrv noDevice3 0 16).ledger.settled).stray ≠ []) ∧
    (¬ LoadSpec poll pollComplete noProc3 0 16 ∧
      (kbufExit poll 16 (kbufInit poll noProc3 0 16).ledger.settled).stray ≠ []) := by
  refine ⟨⟨?_, by decide +kernel⟩, ⟨?_, by decide +kernel⟩⟩
  · intro h
    have hall := h.zeroIff.mp (by decide +kernel)
    have h3 := (hall.2.2 3 (by decide)).2.2
    exact absurd h3 (by simp [noDevice3])
  · intro h
    have hall := h.zeroIff.mp (by decide +kernel)
    have h3 := (hall.2.2 3 (by decide)).2
    exact absurd h3 (by decide)

end KernelDrivers.Kbufdrv.Load
