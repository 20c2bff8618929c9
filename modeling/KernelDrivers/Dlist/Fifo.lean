import KernelDrivers.Dlist.Device
import KernelDrivers.Framework.Machine

namespace KernelDrivers.Dlist

open Framework Kernel

variable {ρ : Type*}

/-- A call, with the outcome of its allocation and of its copy. -/
inductive Call (ρ : Type*) where
  | read (cnt left : Nat)
  | write (cnt : Nat) (buf : ρ) (choice : Option Addr) (left : Nat) (junk : ρ)

def Call.serve (s : StuHead ρ) : Call ρ → Option (Outcome ρ)
  | .read cnt left => kbufRead s cnt left
  | .write cnt buf choice left junk => kbufWrite s cnt buf choice left junk

/-- The record that a call has appended. -/
def Call.appended : Call ρ → Outcome ρ → List ρ
  | .read _ _, _ => []
  | .write _ buf _ _ _, o => if o.moved then [buf] else []

/-- The driver, unless a call has gone wrong, and the records that were appended and
delivered so far. -/
structure Session (ρ : Type*) where
  dev : Option (StuHead ρ)
  appended : List ρ
  delivered : List ρ

def Session.step (s : Session ρ) (call : Call ρ) : Session ρ :=
  match s.dev.bind call.serve with
  | none => { s with dev := none }
  | some o => ⟨some o.dev, s.appended ++ call.appended o, s.delivered ++ o.out.toList⟩

/-- Calls made one after another, from a memory with any links and records. -/
def calls (links : Links Ptr) (stu : Addr → ρ) : Machine (Session ρ) (Call ρ) :=
  ⟨⟨some (.init links stu), [], []⟩, Session.step⟩

variable {s : StuHead ρ} {nodes : List Addr}

/-- A read of a record whose copy goes through delivers the first one and removes its node. -/
theorem kbufRead_first {n : Addr} {rest : List Addr} (h : s.Holds (n :: rest)) :
    kbufRead s sizeofStu 0 = some ⟨sizeofStu, some (s.stu n), s.unlinkFirst.kfree n, true⟩ ∧
      (s.unlinkFirst.kfree n).Holds rest := by
  have hnum : s.num ≠ 0 := by
    rw [h.num]
    exact Nat.succ_ne_zero _
  have halive := h.alive n List.mem_cons_self
  have hmem : Ptr.node n ∈ Ptr.head :: (n :: rest).map .node := by simp
  have hprev := h.mapped (h.ring.prev_mem hmem).1
  have hnext := h.mapped (h.ring.next_mem hmem).1
  have hn : n ∉ rest := (List.nodup_cons.mp h.nodup).1
  refine ⟨?_, h.unlinkFirst.kfree hn⟩
  simp [kbufRead, hnum, h.first, halive, hprev, hnext]

/-- A read changes nothing, or it delivers the record of the first node and removes that
node. -/
theorem kbufRead_cases (h : s.Holds nodes) (cnt left : Nat) :
    (∃ ret ≤ 0, kbufRead s cnt left = some ⟨ret, none, s, false⟩) ∨
    ∃ n rest, nodes = n :: rest ∧
      kbufRead s cnt left = some ⟨sizeofStu, some (s.stu n), s.unlinkFirst.kfree n, true⟩ ∧
      (s.unlinkFirst.kfree n).Holds rest := by
  by_cases hcnt : cnt = sizeofStu
  case neg => exact Or.inl ⟨-einval, by decide, if_pos hcnt⟩
  subst hcnt
  cases nodes with
  | nil =>
    unfold kbufRead
    rw [if_neg (not_not.mpr rfl)]
    exact Or.inl ⟨0, le_refl 0, if_pos h.num⟩
  | cons n rest =>
    by_cases hleft : left = 0
    · subst hleft
      exact Or.inr ⟨n, rest, rfl, kbufRead_first h⟩
    · have hnum : s.num ≠ 0 := by
        rw [h.num]
        exact Nat.succ_ne_zero _
      have halive := h.alive n List.mem_cons_self
      have hres : min left sizeofStu ≠ 0 := by
        have hsize : sizeofStu ≠ 0 := by decide
        omega
      exact Or.inl ⟨-einval, by decide, by simp [kbufRead, hnum, h.first, halive, hres]⟩

/-- The four ways a write of the right size ends. -/
theorem kbufWrite_ends (h : s.Holds nodes) (buf : ρ) (choice : Option Addr) (left : Nat)
    (junk : ρ) :
    (LIMIT_STU < s.num ∧
      kbufWrite s sizeofStu buf choice left junk = some ⟨-eagain, none, s, false⟩) ∨
    (s.num ≤ LIMIT_STU ∧ s.kmalloc choice = none ∧
      kbufWrite s sizeofStu buf choice left junk = some ⟨-enomem, none, s, false⟩) ∨
    ∃ n, s.num ≤ LIMIT_STU ∧ s.kmalloc choice = some n ∧ s.alive n = false ∧
      ((left ≠ 0 ∧ kbufWrite s sizeofStu buf choice left junk =
        some ⟨(min left sizeofStu : Nat), none, (s.allocate n).store n junk, false⟩) ∨
      (left = 0 ∧ kbufWrite s sizeofStu buf choice left junk =
        some ⟨sizeofStu, none, ((s.allocate n).store n buf).append n, true⟩ ∧
        (((s.allocate n).store n buf).append n).Holds (nodes ++ [n]))) := by
  have hsize : sizeofStu ≠ 0 := by decide
  unfold kbufWrite
  rw [if_neg (not_not.mpr rfl)]
  by_cases hlimit : LIMIT_STU < s.num
  · exact Or.inl ⟨hlimit, if_pos hlimit⟩
  have hle := Nat.le_of_not_lt hlimit
  rw [if_neg hlimit]
  cases hmalloc : s.kmalloc choice with
  | none => exact Or.inr (Or.inl ⟨hle, rfl, rfl⟩)
  | some n =>
    have hfree : s.alive n = false := by
      simpa using (Option.filter_eq_some_iff.mp hmalloc).2
    have hkept := (h.allocate n).store n buf
    refine Or.inr (Or.inr ⟨n, hle, rfl, hfree, ?_⟩)
    by_cases hleft : left = 0
    · have hres : ¬ min left sizeofStu ≠ 0 := by omega
      have hprev := hkept.mapped (hkept.ring.prev_mem List.mem_cons_self).1
      refine Or.inr ⟨hleft, ?_, hkept.append (h.not_mem hfree) (StuHead.allocate_self s n)⟩
      simp only [if_neg hres, hprev, if_true]
    · have hres : min left sizeofStu ≠ 0 := by omega
      exact Or.inl ⟨hleft, if_pos hres⟩

/-- A record goes into a node that was free, so the records in the list stay as they are. -/
theorem stored_of_free (h : s.Holds nodes) {n : Addr} (hn : s.alive n = false) (stu : ρ) :
    ∀ m ∈ nodes, ((s.allocate n).store n stu).stu m = s.stu m := by
  intro m hm
  exact StuHead.store_of_ne _ (ne_of_mem_of_not_mem hm (h.not_mem hn)) stu

/-- A write appends a node with the user's record, or it leaves the list alone. -/
theorem kbufWrite_cases (h : s.Holds nodes) (cnt : Nat) (buf : ρ) (choice : Option Addr)
    (left : Nat) (junk : ρ) :
    (∃ ret dev, kbufWrite s cnt buf choice left junk = some ⟨ret, none, dev, false⟩ ∧
      dev.Holds nodes ∧ ∀ m ∈ nodes, dev.stu m = s.stu m) ∨
    ∃ n dev, kbufWrite s cnt buf choice left junk = some ⟨sizeofStu, none, dev, true⟩ ∧
      dev.Holds (nodes ++ [n]) ∧ dev.stu n = buf ∧ ∀ m ∈ nodes, dev.stu m = s.stu m := by
  have hsame : ∀ m ∈ nodes, s.stu m = s.stu m := fun _ _ => rfl
  by_cases hcnt : cnt = sizeofStu
  case neg => exact Or.inl ⟨_, s, if_pos hcnt, h, hsame⟩
  subst hcnt
  rcases kbufWrite_ends h buf choice left junk with ⟨-, hwrite⟩ | ⟨-, -, hwrite⟩ |
    ⟨n, -, -, hfree, ⟨-, hwrite⟩ | ⟨-, hwrite, hholds⟩⟩
  · exact Or.inl ⟨_, s, hwrite, h, hsame⟩
  · exact Or.inl ⟨_, s, hwrite, h, hsame⟩
  · exact Or.inl ⟨_, _, hwrite, (h.allocate n).store n junk, stored_of_free h hfree junk⟩
  · exact Or.inr ⟨n, _, hwrite, hholds, StuHead.store_self _ n buf, stored_of_free h hfree buf⟩

/-- A write that gets memory, and all of its record into it, appends the record. -/
theorem kbufWrite_appends (h : s.Holds nodes) (hnum : s.num ≤ LIMIT_STU) {n : Addr}
    (hn : s.alive n = false) (buf junk : ρ) :
    ∃ dev, kbufWrite s sizeofStu buf (some n) 0 junk = some ⟨sizeofStu, none, dev, true⟩ ∧
      dev.Holds (nodes ++ [n]) ∧ dev.stu n = buf ∧ ∀ m ∈ nodes, dev.stu m = s.stu m := by
  have hmalloc : s.kmalloc (some n) = some n := by simp [StuHead.kmalloc, hn]
  rcases kbufWrite_ends h buf (some n) 0 junk with ⟨hlimit, -⟩ | ⟨-, hnone, -⟩ |
    ⟨m, -, hm, -, ⟨hleft, -⟩ | ⟨-, hwrite, hholds⟩⟩
  · exact absurd hlimit (Nat.not_lt.mpr hnum)
  · cases hmalloc.symm.trans hnone
  · exact absurd rfl hleft
  · obtain rfl := Option.some.inj (hmalloc.symm.trans hm)
    exact ⟨_, hwrite, hholds, StuHead.store_self _ n buf, stored_of_free h hn buf⟩

/-- The state of a session whose calls have all gone right. -/
def Session.Queued (s : Session ρ) : Prop :=
  ∃ dev nodes, s.dev = some dev ∧ dev.Holds nodes ∧ s.delivered ++ nodes.map dev.stu = s.appended

theorem step_queued {s : Session ρ} (h : s.Queued) (call : Call ρ) : (s.step call).Queued := by
  obtain ⟨dev, nodes, hdev, hholds, hfifo⟩ := h
  unfold Session.step
  rw [hdev, Option.bind_some]
  cases call with
  | read cnt left =>
    rcases kbufRead_cases hholds cnt left with ⟨ret, -, hread⟩ | ⟨n, rest, rfl, hread, hrest⟩
    · simp only [Call.serve, hread]
      exact ⟨dev, nodes, rfl, hholds, by simpa [Call.appended] using hfifo⟩
    · simp only [Call.serve, hread]
      refine ⟨_, rest, rfl, hrest, ?_⟩
      simpa [Call.appended, StuHead.kfree, StuHead.unlinkFirst] using hfifo
  | write cnt buf choice left junk =>
    rcases kbufWrite_cases hholds cnt buf choice left junk with
      ⟨ret, dev', hwrite, hholds', hsame⟩ | ⟨n, dev', hwrite, hholds', hnew, hsame⟩
    · simp only [Call.serve, hwrite]
      refine ⟨dev', nodes, rfl, hholds', ?_⟩
      simp only [Call.appended, Bool.false_eq_true, if_false, Option.toList_none, List.append_nil]
      rw [List.map_congr_left hsame]
      exact hfifo
    · simp only [Call.serve, hwrite]
      refine ⟨dev', nodes ++ [n], rfl, hholds', ?_⟩
      simp only [Call.appended, if_true, Option.toList_none, List.append_nil, List.map_append,
        List.map_cons, List.map_nil, hnew]
      rw [List.map_congr_left hsame, ← List.append_assoc, hfifo]

theorem run_queued (links : Links Ptr) (stu : Addr → ρ) (history : List (Call ρ)) :
    ((calls links stu).run history).Queued :=
  (calls links stu).run_invariant (I := Session.Queued)
    ⟨.init links stu, [], rfl, StuHead.init_holds links stu, rfl⟩
    (fun _ call h => step_queued h call) history

/-- After any calls none has gone wrong, the list is a ring of distinct allocated nodes that
`num` counts, and its records are those appended without the first ones, which are those
delivered. A read that delivers none changes nothing, and one whose copy goes through delivers the
first record; a write below the limit that gets memory and its whole record appends it. -/
theorem dlist_fifo (links : Links Ptr) (stu : Addr → ρ) (history : List (Call ρ)) :
    let s := (calls links stu).run history
    ∃ dev nodes, s.dev = some dev ∧ dev.Holds nodes ∧
      (∀ p ∈ .head :: nodes.map .node,
        dev.links.prev (dev.links.next p) = p ∧ dev.links.next (dev.links.prev p) = p) ∧
      s.delivered ++ nodes.map dev.stu = s.appended ∧
      (∀ cnt left, ∃ o, kbufRead dev cnt left = some o ∧
        (o.ret ≤ 0 → o.dev = dev ∧ o.out = none)) ∧
      (∀ n rest, nodes = n :: rest → ∃ o, kbufRead dev sizeofStu 0 = some o ∧
        o.ret = sizeofStu ∧ o.out = some (dev.stu n) ∧ o.dev.Holds rest) ∧
      ∀ n buf junk, dev.num ≤ LIMIT_STU → dev.alive n = false →
        ∃ o, kbufWrite dev sizeofStu buf (some n) 0 junk = some o ∧ o.ret = sizeofStu ∧
          o.moved = true ∧ o.dev.Holds (nodes ++ [n]) ∧ o.dev.stu n = buf ∧
          ∀ m ∈ nodes, o.dev.stu m = dev.stu m := by
  intro s
  obtain ⟨dev, nodes, hdev, hholds, hfifo⟩ := run_queued links stu history
  refine ⟨dev, nodes, hdev, hholds, fun p hp => ?_, hfifo, fun cnt left => ?_, ?_, ?_⟩
  · exact ⟨(hholds.ring.next_mem hp).2, (hholds.ring.prev_mem hp).2⟩
  · rcases kbufRead_cases hholds cnt left with ⟨ret, hret, hread⟩ | ⟨n, rest, -, hread, -⟩
    · exact ⟨_, hread, fun _ => ⟨rfl, rfl⟩⟩
    · refine ⟨_, hread, fun hle => ?_⟩
      have hpos : ¬ (sizeofStu : Int) ≤ 0 := by decide
      exact absurd hle hpos
  · rintro n rest rfl
    obtain ⟨hread, hrest⟩ := kbufRead_first hholds
    exact ⟨_, hread, rfl, rfl, hrest⟩
  · intro n buf junk hnum hn
    obtain ⟨dev', hwrite, hholds', hnew, hsame⟩ := kbufWrite_appends hholds hnum hn buf junk
    exact ⟨_, hwrite, rfl, rfl, hholds', hnew, hsame⟩

end KernelDrivers.Dlist
