import KernelDrivers.Dlist.Fifo

namespace KernelDrivers.Dlist

open Framework Kernel

variable {ρ : Type*} {s : StuHead ρ} {nodes : List Addr}

section Truth

/-- A write of `buf` tells the truth: it returns the size of a record exactly when it has
appended this one, and otherwise an error, with nothing changed and nothing kept. -/
structure Truthful (s : StuHead ρ) (nodes : List Addr) (buf : ρ) (o : Outcome ρ) : Prop where
  appended : o.ret = sizeofStu ↔ ∃ n, o.dev.Holds (nodes ++ [n]) ∧ o.dev.stu n = buf ∧
    ∀ m ∈ nodes, o.dev.stu m = s.stu m
  failed : o.ret ≠ sizeofStu → o.ret < 0 ∧ o.dev.links = s.links ∧ o.dev.num = s.num ∧
    (∀ m ∈ nodes, o.dev.stu m = s.stu m) ∧ o.dev.alive = s.alive

/-- A write that gets as far as its copy copies the whole record. -/
def StuHead.Copies (s : StuHead ρ) (choice : Option Addr) (left : Nat) : Prop :=
  s.num ≤ LIMIT_STU → s.kmalloc choice ≠ none → left = 0

/-- The allocated nodes are those in the list. -/
def StuHead.NoLeak (s : StuHead ρ) (nodes : List Addr) : Prop := ∀ n, s.alive n = true ↔ n ∈ nodes

theorem not_holds_concat (h : s.Holds nodes) {dev : StuHead ρ} (hnum : dev.num = s.num)
    (n : Addr) : ¬ dev.Holds (nodes ++ [n]) := by
  intro hlonger
  have hlen := hlonger.num
  rw [hnum, h.num, List.length_append, List.length_singleton] at hlen
  omega

/-- A write that returns an error and changes nothing tells the truth. -/
theorem truthful_refused (h : s.Holds nodes) (buf : ρ) {ret : Int} (hret : ret < 0) :
    Truthful s nodes buf ⟨ret, none, s, false⟩ where
  appended := by
    have hsize : ret ≠ (sizeofStu : Nat) := by omega
    refine iff_of_false hsize ?_
    intro happended
    obtain ⟨n, hlonger, -⟩ := happended
    exact not_holds_concat h rfl n hlonger
  failed _ := ⟨hret, rfl, rfl, fun _ _ => rfl, rfl⟩

theorem truthful_iff (h : s.Holds nodes) (buf : ρ) (choice : Option Addr) (left : Nat)
    (junk : ρ) :
    ∃ o, kbufWrite s sizeofStu buf choice left junk = some o ∧
      (Truthful s nodes buf o ↔ s.Copies choice left) := by
  rcases kbufWrite_ends h buf choice left junk with
    ⟨hfull, hwrite⟩ | ⟨-, hmalloc, hwrite⟩ | ⟨n, hle, hmalloc, hfree, hend⟩
  · refine ⟨_, hwrite, iff_of_true (truthful_refused h buf (by decide)) ?_⟩
    intro hle
    exact absurd hle (Nat.not_le_of_lt hfull)
  · refine ⟨_, hwrite, iff_of_true (truthful_refused h buf (by decide)) ?_⟩
    intro _ hsome
    exact absurd hmalloc hsome
  · rcases hend with ⟨hleft, hwrite⟩ | ⟨hleft, hwrite, hholds⟩
    · -- what is returned is not negative, and can be the size of a record
      refine ⟨_, hwrite, iff_of_false ?_ ?_⟩
      · intro htrue
        by_cases hret : ((min left sizeofStu : Nat) : Int) = sizeofStu
        · obtain ⟨m, hlonger, -⟩ := htrue.appended.mp hret
          have hnum : ((s.allocate n).store n junk).num = s.num := rfl
          exact not_holds_concat h hnum m hlonger
        · have hneg := (htrue.failed hret).1
          simp only at hneg
          omega
      · intro hcopies
        exact hleft (hcopies hle (by rw [hmalloc]; exact Option.some_ne_none n))
    · refine ⟨_, hwrite, iff_of_true ⟨?_, ?_⟩ fun _ _ => hleft⟩
      · refine iff_of_true rfl ⟨n, hholds, StuHead.store_self _ n buf, ?_⟩
        exact stored_of_free h hfree buf
      · intro hret
        exact absurd rfl hret

/-- A call whose write, if it is one of the right size, copies the whole record. -/
def Call.Copies (s : StuHead ρ) : Call ρ → Prop
  | .read _ _ => True
  | .write cnt _ choice left _ => cnt = sizeofStu → s.Copies choice left

/-- What a call does to the list and to the allocated memory. -/
inductive Moved (s : StuHead ρ) : List Addr → StuHead ρ → List Addr → Prop
  | same (nodes : List Addr) : Moved s nodes s nodes
  | removed {n : Addr} {rest : List Addr} {dev : StuHead ρ}
      (alive : dev.alive = Function.update s.alive n false) : Moved s (n :: rest) dev rest
  | appended {n : Addr} {nodes : List Addr} {dev : StuHead ρ} (free : s.alive n = false)
      (alive : dev.alive = Function.update s.alive n true) : Moved s nodes dev (nodes ++ [n])

theorem serve_moved (h : s.Holds nodes) {call : Call ρ} (hc : call.Copies s) :
    ∃ o nodes', call.serve s = some o ∧ o.dev.Holds nodes' ∧ Moved s nodes o.dev nodes' := by
  cases call with
  | read cnt left =>
    rcases kbufRead_cases h cnt left with ⟨ret, -, hread⟩ | ⟨n, rest, rfl, hread, hrest⟩
    · exact ⟨_, nodes, hread, h, .same nodes⟩
    · exact ⟨_, rest, hread, hrest, .removed rfl⟩
  | write cnt buf choice left junk =>
    by_cases hcnt : cnt = sizeofStu
    · subst hcnt
      rcases kbufWrite_ends h buf choice left junk with
        ⟨-, hwrite⟩ | ⟨-, -, hwrite⟩ | ⟨n, hle, hmalloc, hfree, hend⟩
      · exact ⟨_, nodes, hwrite, h, .same nodes⟩
      · exact ⟨_, nodes, hwrite, h, .same nodes⟩
      · have hzero := hc rfl hle (by rw [hmalloc]; exact Option.some_ne_none n)
        obtain ⟨-, hwrite, hholds⟩ := hend.resolve_left fun hleft => hleft.1 hzero
        exact ⟨_, nodes ++ [n], hwrite, hholds, .appended hfree rfl⟩
    · exact ⟨_, nodes, if_pos hcnt, h, .same nodes⟩

/-- A write that copies a part of the record only keeps the node that it allocated. -/
theorem serve_leaks (h : s.Holds nodes) {call : Call ρ} (hc : ¬ call.Copies s) :
    ∃ o n, call.serve s = some o ∧ o.dev.Holds nodes ∧ s.alive n = false ∧
      o.dev.alive = Function.update s.alive n true := by
  cases call with
  | read cnt left => exact absurd trivial hc
  | write cnt buf choice left junk =>
    simp only [Call.Copies, StuHead.Copies, Classical.not_imp] at hc
    obtain ⟨rfl, hle, hsome, hleft⟩ := hc
    rcases kbufWrite_ends h buf choice left junk with
      ⟨hfull, -⟩ | ⟨-, hmalloc, -⟩ | ⟨n, -, -, hfree, hend⟩
    · exact absurd hle (Nat.not_le_of_lt hfull)
    · exact absurd hmalloc hsome
    · obtain ⟨-, hwrite⟩ := hend.resolve_right fun hzero => hleft hzero.1
      exact ⟨_, n, hwrite, (h.allocate n).store n junk, hfree, rfl⟩

theorem Moved.noLeak {dev : StuHead ρ} {nodes' : List Addr} (hm : Moved s nodes dev nodes')
    (h : s.Holds nodes) (hleak : s.NoLeak nodes) : dev.NoLeak nodes' := by
  intro m
  cases hm with
  | same => exact hleak m
  | @removed n rest _ alive =>
    have hrest := (List.nodup_cons.mp h.nodup).1
    rw [alive]
    by_cases hmn : m = n
    · subst hmn
      simp [hrest]
    · simp [hmn, hleak m]
  | @appended n _ _ free alive =>
    rw [alive]
    by_cases hmn : m = n
    · simp [hmn]
    · simp [hmn, hleak m]

/-- A node that is allocated and not in the list stays so. -/
theorem Moved.stray {dev : StuHead ρ} {nodes' : List Addr} (hm : Moved s nodes dev nodes')
    {l : Addr} (hl : s.alive l = true) (hout : l ∉ nodes) : dev.alive l = true ∧ l ∉ nodes' := by
  cases hm with
  | same => exact ⟨hl, hout⟩
  | @removed n rest _ alive =>
    rw [List.mem_cons, not_or] at hout
    rw [alive, Function.update_of_ne hout.1]
    exact ⟨hl, hout.2⟩
  | @appended n _ _ free alive =>
    have hne : l ≠ n := by
      intro heq
      rw [heq] at hl
      exact absurd (hl.symm.trans free) (by decide)
    rw [alive, Function.update_of_ne hne]
    exact ⟨hl, by simp [hout, hne]⟩

def Session.Copies (s : Session ρ) (call : Call ρ) : Prop :=
  ∀ dev, s.dev = some dev → call.Copies dev

/-- The list is in order, and the memory of the driver is that of the list. -/
def Session.Tidy (s : Session ρ) : Prop :=
  ∃ dev nodes, s.dev = some dev ∧ dev.Holds nodes ∧ dev.NoLeak nodes

/-- The list is in order, and some node is allocated and not in it. -/
def Session.Leaky (s : Session ρ) : Prop :=
  ∃ dev nodes, s.dev = some dev ∧ dev.Holds nodes ∧ ∃ n, dev.alive n = true ∧ n ∉ nodes

theorem step_dev {s : Session ρ} {dev : StuHead ρ} {call : Call ρ} {o : Outcome ρ}
    (hdev : s.dev = some dev) (hserve : call.serve dev = some o) :
    (s.step call).dev = some o.dev := by
  simp [Session.step, hdev, hserve]

theorem step_tidy {s : Session ρ} {call : Call ρ} (hc : s.Copies call) (h : s.Tidy) :
    (s.step call).Tidy := by
  obtain ⟨dev, nodes, hdev, hholds, hleak⟩ := h
  obtain ⟨o, nodes', hserve, hholds', hmoved⟩ := serve_moved hholds (hc dev hdev)
  exact ⟨o.dev, nodes', step_dev hdev hserve, hholds', hmoved.noLeak hholds hleak⟩

theorem step_leaks {s : Session ρ} {call : Call ρ} (hc : ¬ s.Copies call) (h : s.Tidy) :
    (s.step call).Leaky := by
  obtain ⟨dev, nodes, hdev, hholds, hleak⟩ := h
  have hdirty : ¬ call.Copies dev := by
    intro hcopies
    apply hc
    intro dev' hdev'
    rw [Option.some.inj (hdev'.symm.trans hdev)]
    exact hcopies
  obtain ⟨o, n, hserve, hholds', hfree, halive⟩ := serve_leaks hholds hdirty
  refine ⟨o.dev, nodes, step_dev hdev hserve, hholds', n, ?_, hholds.not_mem hfree⟩
  rw [halive, Function.update_self]

theorem step_leaky {s : Session ρ} (h : s.Leaky) (call : Call ρ) : (s.step call).Leaky := by
  obtain ⟨dev, nodes, hdev, hholds, l, hl, hout⟩ := h
  by_cases hc : call.Copies dev
  · obtain ⟨o, nodes', hserve, hholds', hmoved⟩ := serve_moved hholds hc
    exact ⟨o.dev, nodes', step_dev hdev hserve, hholds', l, hmoved.stray hl hout⟩
  · obtain ⟨o, n, hserve, hholds', hfree, halive⟩ := serve_leaks hholds hc
    have hne : l ≠ n := by
      intro heq
      rw [heq] at hl
      exact absurd (hl.symm.trans hfree) (by decide)
    refine ⟨o.dev, nodes, step_dev hdev hserve, hholds', l, ?_, hout⟩
    rw [halive, Function.update_of_ne hne, hl]

/-- A write of the right size tells the truth, in any state of the list, if and only if it
copies the whole record in case it gets as far as its copy; and after any calls the allocated
nodes are those in the list if and only if all writes have done so. -/
theorem write_truthful_iff (links : Links Ptr) (stu : Addr → ρ) :
    (∀ (s : StuHead ρ) (nodes : List Addr), s.Holds nodes → ∀ buf choice left junk,
      ∃ o, kbufWrite s sizeofStu buf choice left junk = some o ∧
        (Truthful s nodes buf o ↔ s.Copies choice left)) ∧
    ∀ history, ∃ dev nodes, ((calls links stu).run history).dev = some dev ∧ dev.Holds nodes ∧
      (dev.NoLeak nodes ↔ (calls links stu).Meets Session.Copies history) := by
  refine ⟨fun s nodes h buf choice left junk => truthful_iff h buf choice left junk, ?_⟩
  intro history
  have hstart : (calls links stu).init.Tidy := by
    refine ⟨.init links stu, [], rfl, StuHead.init_holds links stu, fun n => ?_⟩
    simp [StuHead.init]
  have hsplit := (calls links stu).run_split Session.Copies hstart
    (fun _ _ hc h => step_tidy hc h) (fun _ _ hc h => step_leaks hc h)
    (fun _ call h => step_leaky h call) history
  rcases hsplit with ⟨hm, dev, nodes, hdev, hholds, hleak⟩ | ⟨hm, dev, nodes, hdev, hholds, hstray⟩
  · exact ⟨dev, nodes, hdev, hholds, iff_of_true hleak hm⟩
  · obtain ⟨l, hl, hout⟩ := hstray
    exact ⟨dev, nodes, hdev, hholds, iff_of_false (fun h => hout ((h l).mp hl)) hm⟩

def emptyStu : Stu := ⟨fun _ => 0, 0⟩

/-- The queue right after load, in a memory of empty records. -/
def unused : StuHead Stu := .init ⟨id, id⟩ fun _ => emptyStu

theorem unused_holds : unused.Holds [] := StuHead.init_holds _ _

theorem write_truthful_unused :
    ∃ o, kbufWrite unused sizeofStu emptyStu none 0 emptyStu = some o ∧
      (Truthful unused [] emptyStu o ↔ unused.Copies none 0) :=
  (write_truthful_iff ⟨id, id⟩ fun _ => emptyStu).1 unused [] unused_holds emptyStu none 0 emptyStu

/-- A copy that leaves all 36 bytes passes for a success. -/
theorem write_untruthful :
    ¬ ∃ o, kbufWrite unused sizeofStu emptyStu (some ⟨0, by decide⟩) 36 emptyStu = some o ∧
      Truthful unused [] emptyStu o := by
  intro h
  obtain ⟨o, hwrite, htrue⟩ := h
  obtain ⟨o', hwrite', hiff⟩ :=
    truthful_iff unused_holds emptyStu (some ⟨0, by decide⟩) 36 emptyStu
  obtain rfl := Option.some.inj (hwrite.symm.trans hwrite')
  have hleft := hiff.mp htrue (by decide) (by decide)
  exact absurd hleft (by decide)

end Truth

section Capacity

/-- A call leaves no more records stored, or it is a write of the right size that the limit
has let through and stores one more. -/
theorem serve_length (h : s.Holds nodes) (call : Call ρ) :
    ∃ o nodes', call.serve s = some o ∧ o.dev.Holds nodes' ∧
      (nodes'.length ≤ nodes.length ∨
        nodes'.length = nodes.length + 1 ∧ nodes.length ≤ LIMIT_STU ∧
          ∃ buf choice left junk, call = .write sizeofStu buf choice left junk) := by
  cases call with
  | read cnt left =>
    rcases kbufRead_cases h cnt left with ⟨ret, -, hread⟩ | ⟨n, rest, rfl, hread, hrest⟩
    · exact ⟨_, nodes, hread, h, Or.inl (Nat.le_refl _)⟩
    · exact ⟨_, rest, hread, hrest, Or.inl (by simp)⟩
  | write cnt buf choice left junk =>
    by_cases hcnt : cnt = sizeofStu
    · subst hcnt
      rcases kbufWrite_ends h buf choice left junk with
        ⟨-, hwrite⟩ | ⟨-, -, hwrite⟩ | ⟨n, hle, -, -, ⟨-, hwrite⟩ | ⟨-, hwrite, hholds⟩⟩
      · exact ⟨_, nodes, hwrite, h, Or.inl (Nat.le_refl _)⟩
      · exact ⟨_, nodes, hwrite, h, Or.inl (Nat.le_refl _)⟩
      · exact ⟨_, nodes, hwrite, (h.allocate n).store n junk, Or.inl (Nat.le_refl _)⟩
      · rw [h.num] at hle
        exact ⟨_, nodes ++ [n], hwrite, hholds, Or.inr ⟨by simp, hle, buf, choice, left, junk, rfl⟩⟩
    · exact ⟨_, nodes, if_pos hcnt, h, Or.inl (Nat.le_refl _)⟩

theorem eagain_iff (h : s.Holds nodes) (buf : ρ) (choice : Option Addr) (left : Nat) (junk : ρ) :
    ∃ o, kbufWrite s sizeofStu buf choice left junk = some o ∧
      (o.ret = -eagain ↔ LIMIT_STU < nodes.length) := by
  have hnum := h.num
  rcases kbufWrite_ends h buf choice left junk with
    ⟨hfull, hwrite⟩ | ⟨hle, -, hwrite⟩ | ⟨n, hle, -, -, ⟨-, hwrite⟩ | ⟨-, hwrite, -⟩⟩
  · exact ⟨_, hwrite, iff_of_true rfl (hnum ▸ hfull)⟩
  · exact ⟨_, hwrite, iff_of_false (show -enomem ≠ -eagain by decide) (by omega)⟩
  · refine ⟨_, hwrite, iff_of_false ?_ (by omega)⟩
    show ((min left sizeofStu : Nat) : Int) ≠ -eagain
    have hneg : -eagain < 0 := by decide
    omega
  · exact ⟨_, hwrite, iff_of_false (show ((sizeofStu : Nat) : Int) ≠ -eagain by decide) (by omega)⟩

/-- The list is in order and `num` is within a bound. -/
def Session.Within (bound : Nat) (s : Session ρ) : Prop :=
  ∃ dev nodes, s.dev = some dev ∧ dev.Holds nodes ∧ dev.num ≤ bound

/-- A call that is a write of the right size is refused exactly when `limit` records are
stored. -/
def Session.RefusesAt (limit : Nat) (s : Session ρ) (call : Call ρ) : Prop :=
  ∀ buf choice left junk, call = .write sizeofStu buf choice left junk →
    ∃ dev nodes o, s.dev = some dev ∧ dev.Holds nodes ∧ call.serve dev = some o ∧
      (o.ret = -eagain ↔ nodes.length = limit)

/-- A write of the right size does not come when `LIMIT_STU` records are stored. -/
def Session.HasRoom (s : Session ρ) : Call ρ → Prop
  | .read _ _ => True
  | .write cnt _ _ _ _ => cnt = sizeofStu → ∀ dev, s.dev = some dev → dev.num ≠ LIMIT_STU

/-- A bound stays one when the writes that the limit lets through leave room for one more. -/
theorem Session.Within.step {bound : Nat} {s : Session ρ} {call : Call ρ} (h : s.Within bound)
    (hroom : ∀ dev, s.dev = some dev → dev.num ≤ bound → dev.num ≤ LIMIT_STU →
      (∃ buf choice left junk, call = .write sizeofStu buf choice left junk) → dev.num < bound) :
    (s.step call).Within bound := by
  obtain ⟨dev, nodes, hdev, hholds, hle⟩ := h
  obtain ⟨o, nodes', hserve, hholds', hlen⟩ := serve_length hholds call
  refine ⟨o.dev, nodes', step_dev hdev hserve, hholds', ?_⟩
  have hroom' := hroom dev hdev hle
  rw [hholds.num] at hle hroom'
  rw [hholds'.num]
  rcases hlen with hsame | ⟨hmore, hlimit, hcall⟩
  · omega
  · have hlt := hroom' hlimit hcall
    omega

theorem step_within {s : Session ρ} {call : Call ρ} (hc : s.HasRoom call)
    (h : s.Within LIMIT_STU) : (s.step call).Within LIMIT_STU := by
  apply h.step
  rintro dev hdev hle - ⟨buf, choice, left, junk, rfl⟩
  exact Nat.lt_of_le_of_ne hle (hc rfl dev hdev)

theorem refusesAt_iff {s : Session ρ} (h : s.Within LIMIT_STU) (call : Call ρ) :
    s.RefusesAt LIMIT_STU call ↔ s.HasRoom call := by
  obtain ⟨dev, nodes, hdev, hholds, hle⟩ := h
  rw [hholds.num] at hle
  constructor
  · intro hrefuses
    cases call with
    | read cnt left => trivial
    | write cnt buf choice left junk =>
      intro hcnt dev' hdev' hnum
      subst hcnt
      obtain rfl := Option.some.inj (hdev'.symm.trans hdev)
      obtain ⟨dev'', nodes', o, hdev'', hholds', hserve, hiff⟩ :=
        hrefuses buf choice left junk rfl
      obtain rfl := Option.some.inj (hdev''.symm.trans hdev)
      obtain ⟨o', hserve', hiff'⟩ := eagain_iff hholds' buf choice left junk
      obtain rfl := Option.some.inj (hserve.symm.trans hserve')
      rw [hholds'.num] at hnum
      have hover := hiff'.mp (hiff.mpr hnum)
      omega
  · intro hroom buf choice left junk hcall
    subst hcall
    obtain ⟨o, hserve, hiff⟩ := eagain_iff hholds buf choice left junk
    have hne := hroom rfl dev hdev
    rw [hholds.num] at hne
    refine ⟨dev, nodes, o, hdev, hholds, hserve, hiff.trans ?_⟩
    exact iff_of_false (by omega) hne

/-- The calls that keep `num` within `LIMIT_STU` and refuse a write exactly at `LIMIT_STU`
records are those among which none writes a record at `LIMIT_STU` records. -/
theorem capacity_iff (links : Links Ptr) (stu : Addr → ρ) (history : List (Call ρ)) :
    ((∀ past, past <+: history → ((calls links stu).run past).Within LIMIT_STU) ∧
      (calls links stu).Meets (Session.RefusesAt LIMIT_STU) history) ↔
    (calls links stu).Meets Session.HasRoom history := by
  have hstart : (calls links stu).init.Within LIMIT_STU :=
    ⟨.init links stu, [], rfl, StuHead.init_holds links stu, Nat.zero_le _⟩
  have hstep (s : Session ρ) (call : Call ρ) (hc : s.HasRoom call) (h : s.Within LIMIT_STU) :
      (s.step call).Within LIMIT_STU := step_within hc h
  rw [Machine.meets_congr hstart hstep fun _ call h => refusesAt_iff h call]
  constructor
  · exact fun h => h.2
  · intro hm
    refine ⟨?_, hm⟩
    intro past hpast
    obtain ⟨more, rfl⟩ := hpast
    exact Machine.run_invariant_of_meets hstart hstep (Machine.meets_of_append past more hm)

/-- What the comparison with `LIMIT_STU` amounts to: one record more is stored. -/
theorem capacity_reached (links : Links Ptr) (stu : Addr → ρ) (history : List (Call ρ))
    (call : Call ρ) :
    ((calls links stu).run history).Within (LIMIT_STU + 1) ∧
      ((calls links stu).run history).RefusesAt (LIMIT_STU + 1) call := by
  have hwithin := (calls links stu).run_invariant (I := Session.Within (LIMIT_STU + 1))
    ⟨.init links stu, [], rfl, StuHead.init_holds links stu, Nat.zero_le _⟩
    (fun _ _ h => h.step fun _ _ _ hlimit _ => Nat.lt_succ_of_le hlimit) history
  refine ⟨hwithin, ?_⟩
  intro buf choice left junk hcall
  subst hcall
  obtain ⟨dev, nodes, hdev, hholds, hle⟩ := hwithin
  obtain ⟨o, hserve, hiff⟩ := eagain_iff hholds buf choice left junk
  rw [hholds.num] at hle
  refine ⟨dev, nodes, o, hdev, hholds, hserve, hiff.trans ?_⟩
  omega

/-- Fifty-one records are written, each into memory of its own. -/
def overfill : List (Call Stu) :=
  (List.finRange 51).map fun i =>
    .write sizeofStu emptyStu (some (i.castLE (by decide))) 0 emptyStu

theorem capacity_exceeded :
    ¬ ∀ past, past <+: overfill →
      ((calls ⟨id, id⟩ fun _ => emptyStu).run past).Within LIMIT_STU := by
  intro h
  obtain ⟨dev, nodes, hdev, -, hle⟩ := h overfill List.prefix_rfl
  have hnum : ((calls ⟨id, id⟩ fun _ => emptyStu).run overfill).dev.map StuHead.num = some 51 := by
    decide +kernel
  rw [hdev] at hnum
  have hfull : dev.num = 51 := Option.some.inj hnum
  rw [hfull] at hle
  exact absurd hle (by decide)

end Capacity

end KernelDrivers.Dlist
