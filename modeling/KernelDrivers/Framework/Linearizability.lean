import Mathlib.Data.List.Nodup

namespace KernelDrivers.Framework

open scoped List

/-- A sequential object: the response of an operation and the state it leaves. -/
structure SeqSpec (S O R : Type*) where
  init : S
  step : S → O → S × R

/-- One entry of a concurrent history. Calls carry the number they were given when
invoked; `C` is what the caller asks, `O` the operation as it was carried out. -/
inductive HistoryEvent (C O R : Type*) where
  | invoke (id : Nat) (call : C)
  | respond (id : Nat) (op : O) (resp : R)

/-- A completed call. -/
structure Completed (O R : Type*) where
  id : Nat
  op : O
  resp : R

variable {S C O R : Type*}

namespace HistoryEvent

def completed? : HistoryEvent C O R → Option (Completed O R)
  | .invoke _ _ => none
  | .respond id op resp => some ⟨id, op, resp⟩

def invoked? : HistoryEvent C O R → Option Nat
  | .invoke id _ => some id
  | .respond _ _ _ => none

end HistoryEvent

/-- The completed calls of a history in the order of their responses. -/
def completions (h : List (HistoryEvent C O R)) : List (Completed O R) :=
  h.filterMap HistoryEvent.completed?

def invocations (h : List (HistoryEvent C O R)) : List Nat :=
  h.filterMap HistoryEvent.invoked?

@[simp] theorem completions_invoke (h : List (HistoryEvent C O R)) (id : Nat) (c : C) :
    completions (h ++ [.invoke id c]) = completions h := by
  simp [completions, HistoryEvent.completed?]

@[simp] theorem completions_respond (h : List (HistoryEvent C O R)) (id : Nat) (o : O) (r : R) :
    completions (h ++ [.respond id o r]) = completions h ++ [⟨id, o, r⟩] := by
  simp [completions, HistoryEvent.completed?]

@[simp] theorem invocations_invoke (h : List (HistoryEvent C O R)) (id : Nat) (c : C) :
    invocations (h ++ [.invoke id c]) = invocations h ++ [id] := by
  simp [invocations, HistoryEvent.invoked?]

@[simp] theorem invocations_respond (h : List (HistoryEvent C O R)) (id : Nat) (o : O) (r : R) :
    invocations (h ++ [.respond id o r]) = invocations h := by
  simp [invocations, HistoryEvent.invoked?]

/-- A completed call without its number: the operation and what it returned. -/
def Completed.exchange (c : Completed O R) : O × R := (c.op, c.resp)

namespace SeqSpec

variable (spec : SeqSpec S O R)

def replay (s : S) (l : List (O × R)) : S := l.foldl (fun s e => (spec.step s e.1).1) s

/-- Every operation of `l`, run one after another from `s`, returns what `l` records. -/
def LegalFrom : S → List (O × R) → Prop
  | _, [] => True
  | s, e :: l => (spec.step s e.1).2 = e.2 ∧ LegalFrom (spec.step s e.1).1 l

def Legal (l : List (O × R)) : Prop := spec.LegalFrom spec.init l

@[simp] theorem replay_concat (s : S) (l : List (O × R)) (e : O × R) :
    spec.replay s (l ++ [e]) = (spec.step (spec.replay s l) e.1).1 := by
  simp [replay]

theorem legalFrom_concat (s : S) (l : List (O × R)) (e : O × R) :
    spec.LegalFrom s (l ++ [e]) ↔
      spec.LegalFrom s l ∧ (spec.step (spec.replay s l) e.1).2 = e.2 := by
  induction l generalizing s with
  | nil => simp [LegalFrom, replay]
  | cons d l ih =>
    simp only [List.cons_append, LegalFrom, ih, and_assoc]
    rfl

theorem replay_append (s : S) (l m : List (O × R)) :
    spec.replay s (l ++ m) = spec.replay (spec.replay s l) m := by
  simp [replay]

theorem legalFrom_append (s : S) (l m : List (O × R)) :
    spec.LegalFrom s (l ++ m) ↔ spec.LegalFrom s l ∧ spec.LegalFrom (spec.replay s l) m := by
  induction l generalizing s with
  | nil => simp [LegalFrom, replay]
  | cons e l ih =>
    simp only [List.cons_append, LegalFrom, ih, and_assoc]
    rfl

theorem legal_concat (l : List (O × R)) (e : O × R) :
    spec.Legal (l ++ [e]) ↔ spec.Legal l ∧ (spec.step (spec.replay spec.init l) e.1).2 = e.2 :=
  spec.legalFrom_concat spec.init l e

end SeqSpec

/-- Call `a` has responded before call `b` was invoked. -/
def Precedes (h : List (HistoryEvent C O R)) (a b : Completed O R) : Prop :=
  ∃ c, [.respond a.id a.op a.resp, .invoke b.id c] <+ h

/-- The completed calls have a sequential order that agrees with real time and in
which each returns what the sequential object returns. -/
def Linearizable (spec : SeqSpec S O R) (h : List (HistoryEvent C O R)) : Prop :=
  ∃ order : List (Completed O R), order.Perm (completions h) ∧
    spec.Legal (order.map Completed.exchange) ∧
    ∀ a ∈ order, ∀ b ∈ order, Precedes h a b → [a, b] <+ order

/-- Each number is handed to one invocation only, and a call responds after its own
invocation, to what was asked there. -/
structure WellFormed (ask : O → C) (h : List (HistoryEvent C O R)) : Prop where
  fresh : (invocations h).Nodup
  answered : ∀ pre post id o r, h = pre ++ .respond id o r :: post → .invoke id (ask o) ∈ pre

theorem mem_invocations {h : List (HistoryEvent C O R)} {id : Nat} {c : C}
    (hm : .invoke id c ∈ h) : id ∈ invocations h :=
  List.mem_filterMap.mpr ⟨_, hm, rfl⟩

namespace WellFormed

variable {ask : O → C}

theorem nil : WellFormed ask ([] : List (HistoryEvent C O R)) :=
  ⟨List.nodup_nil, by intro pre post id o r h; simp at h⟩

theorem invoke {h : List (HistoryEvent C O R)} (w : WellFormed ask h) {id : Nat}
    (hid : id ∉ invocations h) (c : C) : WellFormed ask (h ++ [.invoke id c]) where
  fresh := by
    rw [invocations_invoke]
    exact List.nodup_append.mpr ⟨w.fresh, List.nodup_singleton id, by
      rintro x hx y hy rfl
      exact hid (List.mem_singleton.mp hy ▸ hx)⟩
  answered := by
    intro pre post k o r he
    rcases List.eq_nil_or_concat post with rfl | ⟨post, e, rfl⟩
    · have hlast := congrArg List.getLast? he
      simp at hlast
    · have hs : h ++ [.invoke id c] = (pre ++ .respond k o r :: post) ++ [e] := by simpa using he
      exact w.answered pre post k o r (List.append_inj' hs rfl).1

theorem respond {h : List (HistoryEvent C O R)} (w : WellFormed ask h) {id : Nat} {o : O}
    (hid : .invoke id (ask o) ∈ h) (r : R) : WellFormed ask (h ++ [.respond id o r]) where
  fresh := by rw [invocations_respond]; exact w.fresh
  answered := by
    intro pre post k o' r' he
    rcases List.eq_nil_or_concat post with rfl | ⟨post, e, rfl⟩
    · obtain ⟨hpre, hev⟩ := List.append_inj' he rfl
      obtain ⟨rfl, rfl, -⟩ := HistoryEvent.respond.inj (List.singleton_inj.mp hev)
      exact hpre ▸ hid
    · have hs : h ++ [.respond id o r] = (pre ++ .respond k o' r' :: post) ++ [e] := by
        simpa using he
      exact w.answered pre post k o' r' (List.append_inj' hs rfl).1

/-- A call invoked after another one's response also responds after it. -/
theorem respond_after {h : List (HistoryEvent C O R)} (w : WellFormed ask h)
    {a b : Completed O R} {c : C}
    (hab : [.respond a.id a.op a.resp, .invoke b.id c] <+ h)
    (hb : .respond b.id b.op b.resp ∈ h) :
    [.respond a.id a.op a.resp, .respond b.id b.op b.resp] <+ h := by
  obtain ⟨l, r, rfl, hl, hr⟩ := List.cons_sublist_iff.mp hab
  have hinv : .invoke b.id c ∈ r := hr.subset (by simp)
  rcases List.mem_append.mp hb with hb | hb
  · -- a response among the earlier events would need a second invocation of `b`
    obtain ⟨pre, post, rfl⟩ := List.append_of_mem hb
    have hearly : b.id ∈ invocations pre :=
      mem_invocations (w.answered pre (post ++ r) b.id b.op b.resp (by simp))
    have hn := w.fresh
    simp only [invocations, List.append_assoc, List.cons_append, List.filterMap_append] at hn
    have hlate : b.id ∈ invocations (.respond b.id b.op b.resp :: (post ++ r)) :=
      mem_invocations (List.mem_cons_of_mem _ (List.mem_append_right _ hinv))
    exact absurd rfl ((List.nodup_append.mp hn).2.2 b.id hearly b.id hlate)
  · exact (List.singleton_sublist.mpr hl).append (List.singleton_sublist.mpr hb)

/-- Calls that each take effect at their response linearize in the order of their
responses. -/
theorem linearizable {h : List (HistoryEvent C O R)} (w : WellFormed ask h)
    {spec : SeqSpec S O R} (legal : spec.Legal ((completions h).map Completed.exchange)) :
    Linearizable spec h := by
  refine ⟨completions h, List.Perm.refl _, legal, ?_⟩
  rintro a - b hb ⟨c, hab⟩
  have hmem : .respond b.id b.op b.resp ∈ h := by
    obtain ⟨e, he, hc⟩ := List.mem_filterMap.mp hb
    cases e with
    | invoke id call => simp [HistoryEvent.completed?] at hc
    | respond id op resp =>
      obtain rfl := Option.some.inj hc
      exact he
  exact (w.respond_after hab hmem).filterMap HistoryEvent.completed?

end WellFormed

end KernelDrivers.Framework
