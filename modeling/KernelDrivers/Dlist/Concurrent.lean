import KernelDrivers.Dlist.Device
import KernelDrivers.Framework.Machine

namespace KernelDrivers.Dlist.Concurrent

open Framework Kernel

/-- A record in memory, with the number of the allocation it was copied into. -/
structure Record where
  id : Nat
  stu : Stu

/-- Where a process is: outside with what its last call returned, in `kbuf_read` behind the
pick or behind the copy, or in `kbuf_write` behind the test, the allocation or the copy.
`lost` is a reader for which `container_of` was applied to what is not in a node. -/
inductive Pc where
  | out (ret : Int)
  | picked (stu : Addr)
  | copied (stu : Addr) (copy : Record)
  | lost
  | tested (buf : Stu)
  | allocated (n : Addr) (id : Nat) (buf : Stu)
  | filled (n : Addr) (id : Nat)

/-- What the environment decides about a step: what a copy would leave uncopied, what a copy
from the user that leaves some puts there, and where memory is found. -/
structure Fate where
  left : Nat
  junk : Stu
  choice : Option Addr

inductive Act (P : Type*) where
  | read (p : P) (cnt : Nat)
  | write (p : P) (cnt : Nat) (buf : Stu)
  | proceed (p : P) (fate : Fate)

/-- The driver and its callers. The other fields are a record of the past: how many nodes
were allocated, the number of the last allocation at each address, whose record was
delivered, and what `list_del` and `kfree` were applied to, if to a node that was there. -/
structure System (P : Type*) where
  dev : StuHead Record
  pc : P → Pc
  serial : Nat
  owner : Addr → Nat
  delivered : List Nat
  unlinked : List (Option Nat)
  freed : List (Option Nat)

namespace System

variable {P : Type*} [DecidableEq P] (s : System P)

def goto (p : P) (pc : Pc) : System P := { s with pc := Function.update s.pc p pc }

/-- The node that `stuhead.head.next` points to. -/
def first? : Option Addr :=
  match s.dev.links.next .head with
  | .node n => some n
  | _ => none

/-- The first steps of `kbuf_read`. -/
def testAndPick (p : P) (cnt : Nat) : System P :=
  if cnt ≠ sizeofStu then s.goto p (.out (-einval))
  else if s.dev.num = 0 then s.goto p (.out 0)
  else
    match s.first? with
    | some stu => s.goto p (.picked stu)
    | none => s.goto p .lost

def copyToUser (p : P) (stu : Addr) (left : Nat) : System P :=
  if min left sizeofStu ≠ 0 then s.goto p (.out (-einval))
  else s.goto p (.copied stu (s.dev.stu stu))

/-- `list_del(stuhead.head.next); stuhead.num--; kfree(stu); return cnt`. -/
def unlinkAndFree (p : P) (stu : Addr) (copy : Record) : System P :=
  { s.goto p (.out sizeofStu) with
    dev := s.dev.unlinkFirst.kfree stu
    delivered := s.delivered ++ [copy.id]
    unlinked := s.unlinked ++ [s.first?.map s.owner]
    freed := s.freed ++ [if s.dev.alive stu then some (s.owner stu) else none] }

/-- The first steps of `kbuf_write`. -/
def testNum (p : P) (cnt : Nat) (buf : Stu) : System P :=
  if cnt ≠ sizeofStu then s.goto p (.out (-einval))
  else if LIMIT_STU < s.dev.num then s.goto p (.out (-eagain))
  else s.goto p (.tested buf)

def kmalloc (p : P) (buf : Stu) (choice : Option Addr) : System P :=
  match s.dev.kmalloc choice with
  | none => s.goto p (.out (-enomem))
  | some n =>
    { s.goto p (.allocated n s.serial buf) with
      dev := s.dev.allocate n
      serial := s.serial + 1
      owner := Function.update s.owner n s.serial }

def copyFromUser (p : P) (n : Addr) (id : Nat) (buf : Stu) (fate : Fate) : System P :=
  if min fate.left sizeofStu ≠ 0 then
    { s.goto p (.out (min fate.left sizeofStu : Nat)) with dev := s.dev.store n ⟨id, fate.junk⟩ }
  else { s.goto p (.filled n id) with dev := s.dev.store n ⟨id, buf⟩ }

def addTail (p : P) (n : Addr) : System P :=
  { s.goto p (.out sizeofStu) with dev := s.dev.append n }

def step : Act P → System P
  | .read p cnt =>
    match s.pc p with
    | .out _ => s.testAndPick p cnt
    | _ => s
  | .write p cnt buf =>
    match s.pc p with
    | .out _ => s.testNum p cnt buf
    | _ => s
  | .proceed p fate =>
    match s.pc p with
    | .out _ => s
    | .picked stu => s.copyToUser p stu fate.left
    | .copied stu copy => s.unlinkAndFree p stu copy
    | .lost => s
    | .tested buf => s.kmalloc p buf fate.choice
    | .allocated n id buf => s.copyFromUser p n id buf fate
    | .filled n _ => s.addTail p n

/-- Each record is delivered once, each node is freed once and behind its removal, `list_del`
is applied to nodes only, and the list is well formed and counted by `num`. -/
structure Safe : Prop where
  deliveredOnce : s.delivered.Nodup
  freedOnce : none ∉ s.freed ∧ s.freed.Nodup
  unlinkedFirst : ∀ i ∈ s.freed, i ∈ s.unlinked
  notHead : none ∉ s.unlinked
  listed : ∃ nodes, s.dev.Holds nodes

/-- A reader that comes to `list_del` finds at the front the record that it has copied. -/
def Undisturbed : Act P → Prop
  | .proceed p _ =>
    ∀ stu copy, s.pc p = .copied stu copy → s.first?.map (fun n => (s.dev.stu n).id) = some copy.id
  | _ => True

end System

/-- Any processes on the device, from a memory with any links and records. -/
def machine (P : Type*) [DecidableEq P] (links : Links Ptr) (stu : Addr → Record) :
    Machine (System P) (Act P) :=
  ⟨⟨.init links stu, fun _ => .out 0, 0, fun _ => 0, [], [], []⟩, System.step⟩

/-- The node that a writer has allocated and not yet added. -/
def Pc.holds : Pc → Option Addr
  | .allocated n _ _ => some n
  | .filled n _ => some n
  | _ => none

namespace System

variable {P : Type*} [DecidableEq P]

/-- Allocation `i` is still the one at address `n`, or its record has been delivered. -/
def Tagged (s : System P) (i : Nat) (n : Addr) : Prop :=
  (s.dev.alive n = true ∧ s.owner n = i) ∨ i ∈ s.delivered

/-- What is known where a process is. A reader may hold a node that is gone. -/
def At (s : System P) (nodes : List Addr) : Pc → Prop
  | .picked n => s.Tagged (s.dev.stu n).id n
  | .copied n copy => s.Tagged copy.id n
  | .lost => False
  | .allocated n id _ => s.dev.alive n = true ∧ s.owner n = id ∧ n ∉ nodes
  | .filled n id => s.dev.alive n = true ∧ s.owner n = id ∧ n ∉ nodes ∧ (s.dev.stu n).id = id
  | _ => True

/-- What undisturbed readers and any writers keep of the shared data: the delivered records
are those whose nodes were removed and freed, and memory in use belongs to other
allocations. -/
structure Shared (s : System P) (nodes : List Addr) : Prop where
  holds : s.dev.Holds nodes
  tags : ∀ n ∈ nodes, (s.dev.stu n).id = s.owner n
  fresh : ∀ n, s.dev.alive n = true → s.owner n < s.serial ∧ s.owner n ∉ s.delivered
  owners : ∀ m n, s.dev.alive m = true → s.dev.alive n = true → s.owner m = s.owner n → m = n
  once : s.delivered.Nodup
  old : ∀ i ∈ s.delivered, i < s.serial
  unlinked : s.unlinked = s.delivered.map some
  freed : s.freed = s.delivered.map some

structure Inv (s : System P) (nodes : List Addr) : Prop where
  shared : s.Shared nodes
  place : ∀ p, s.At nodes (s.pc p)
  apart : ∀ p q n, (s.pc p).holds = some n → (s.pc q).holds = some n → p = q

variable {s : System P} {nodes : List Addr}

omit [DecidableEq P] in
theorem Shared.first (h : s.Shared nodes) : s.first? = nodes.head? := by
  cases nodes with
  | nil =>
    have hnext : s.dev.links.next .head = .head := h.holds.ring.next_head_nil
    simp [first?, hnext]
  | cons n rest => simp [first?, h.holds.first]

omit [DecidableEq P] in
theorem Shared.safe (h : s.Shared nodes) : s.Safe where
  deliveredOnce := h.once
  freedOnce := by
    rw [h.freed]
    exact ⟨by simp, h.once.map (Option.some_injective _)⟩
  unlinkedFirst i hi := by
    rw [h.freed, ← h.unlinked] at hi
    exact hi
  notHead := by
    rw [h.unlinked]
    simp
  listed := ⟨nodes, h.holds⟩

omit [DecidableEq P] in
/-- What is known where a process is stays true when its node stays its own, and what is
known about addresses stays true. -/
theorem At.transfer {s' : System P} {nodes' : List Addr} {pc : Pc} (h : s.At nodes pc)
    (htagged : ∀ i n, s.Tagged i n → s'.Tagged i n)
    (hstu : ∀ n, s.Tagged (s.dev.stu n).id n → s'.Tagged (s'.dev.stu n).id n)
    (hheld : ∀ n, pc.holds = some n → s.dev.alive n = true → n ∉ nodes →
      s'.dev.alive n = true ∧ s'.owner n = s.owner n ∧ n ∉ nodes' ∧
        (s'.dev.stu n).id = (s.dev.stu n).id) : s'.At nodes' pc := by
  cases pc with
  | out ret => trivial
  | picked n => exact hstu n h
  | copied n copy => exact htagged _ n h
  | lost => exact h
  | tested buf => trivial
  | allocated n id buf =>
    obtain ⟨halive, howner, hn⟩ := h
    obtain ⟨halive', howner', hn', -⟩ := hheld n rfl halive hn
    exact ⟨halive', howner'.trans howner, hn'⟩
  | filled n id =>
    obtain ⟨halive, howner, hn, hid⟩ := h
    obtain ⟨halive', howner', hn', hid'⟩ := hheld n rfl halive hn
    exact ⟨halive', howner'.trans howner, hn', hid'.trans hid⟩

omit [DecidableEq P] in
theorem At.held {pc : Pc} {n : Addr} (h : s.At nodes pc) (hn : pc.holds = some n) :
    s.dev.alive n = true ∧ n ∉ nodes := by
  cases pc <;> simp only [Pc.holds, Option.some.injEq, reduceCtorEq] at hn
  · subst hn
    exact ⟨h.1, h.2.2⟩
  · subst hn
    exact ⟨h.1, h.2.2.1⟩

/-- A step of `p` keeps the invariant when it keeps what is known where the others are. -/
theorem Inv.move (h : s.Inv nodes) {s' : System P} {nodes' : List Addr} {p : P} {pc : Pc}
    (hshared : s'.Shared nodes') (hpc : s'.pc = Function.update s.pc p pc)
    (hself : s'.At nodes' pc)
    (hothers : ∀ q, q ≠ p → s'.At nodes' (s.pc q))
    (hheld : ∀ n, pc.holds = some n → ∀ q, q ≠ p → (s.pc q).holds ≠ some n) : s'.Inv nodes' where
  shared := hshared
  place q := by
    rw [hpc]
    by_cases hq : q = p
    · subst hq
      rw [Function.update_self]
      exact hself
    · rw [Function.update_of_ne hq]
      exact hothers q hq
  apart q r n hqn hrn := by
    rw [hpc] at hqn hrn
    by_cases hq : q = p
    · by_cases hr : r = p
      · rw [hq, hr]
      · rw [hq, Function.update_self] at hqn
        rw [Function.update_of_ne hr] at hrn
        exact absurd hrn (hheld n hqn r hr)
    · by_cases hr : r = p
      · rw [hr, Function.update_self] at hrn
        rw [Function.update_of_ne hq] at hqn
        exact absurd hqn (hheld n hrn q hq)
      · rw [Function.update_of_ne hq] at hqn
        rw [Function.update_of_ne hr] at hrn
        exact h.apart q r n hqn hrn

/-- A step that changes only where `p` is. -/
theorem goto_inv (h : s.Inv nodes) (p : P) {pc : Pc} (hself : s.At nodes pc)
    (hnone : pc.holds = none) : (s.goto p pc).Inv nodes := by
  have hshared : (s.goto p pc).Shared nodes := ⟨h.shared.holds, h.shared.tags, h.shared.fresh,
    h.shared.owners, h.shared.once, h.shared.old, h.shared.unlinked, h.shared.freed⟩
  refine h.move hshared rfl ?_ (fun q _ => ?_) fun n hn => ?_
  · cases pc <;> exact hself
  · exact (h.place q).transfer (fun _ _ ht => ht) (fun _ ht => ht)
      fun _ _ halive hn => ⟨halive, rfl, hn, rfl⟩
  · exact absurd (hnone.symm.trans hn) (by simp)

theorem testAndPick_inv (h : s.Inv nodes) (p : P) (cnt : Nat) :
    (s.testAndPick p cnt).Inv nodes := by
  unfold testAndPick
  by_cases hcnt : cnt ≠ sizeofStu
  · rw [if_pos hcnt]
    exact goto_inv h p trivial rfl
  by_cases hnum : s.dev.num = 0
  · rw [if_neg hcnt, if_pos hnum]
    exact goto_inv h p trivial rfl
  rw [if_neg hcnt, if_neg hnum, h.shared.first]
  cases nodes with
  | nil => exact absurd h.shared.holds.num hnum
  | cons n rest =>
    have halive := h.shared.holds.alive n List.mem_cons_self
    have htag := h.shared.tags n List.mem_cons_self
    exact goto_inv h p (Or.inl ⟨halive, htag.symm⟩) rfl

theorem copyToUser_inv (h : s.Inv nodes) (p : P) {n : Addr} (hat : s.At nodes (.picked n))
    (left : Nat) : (s.copyToUser p n left).Inv nodes := by
  unfold copyToUser
  by_cases hleft : min left sizeofStu ≠ 0
  · rw [if_pos hleft]
    exact goto_inv h p trivial rfl
  · rw [if_neg hleft]
    exact goto_inv h p hat rfl

theorem testNum_inv (h : s.Inv nodes) (p : P) (cnt : Nat) (buf : Stu) :
    (s.testNum p cnt buf).Inv nodes := by
  unfold testNum
  by_cases hcnt : cnt ≠ sizeofStu
  · rw [if_pos hcnt]
    exact goto_inv h p trivial rfl
  by_cases hlimit : LIMIT_STU < s.dev.num
  · rw [if_neg hcnt, if_pos hlimit]
    exact goto_inv h p trivial rfl
  · rw [if_neg hcnt, if_neg hlimit]
    exact goto_inv h p trivial rfl

theorem kmalloc_inv (h : s.Inv nodes) (p : P) (buf : Stu) (choice : Option Addr) :
    (s.kmalloc p buf choice).Inv nodes := by
  unfold kmalloc
  cases hmalloc : s.dev.kmalloc choice with
  | none => exact goto_inv h p trivial rfl
  | some n =>
    have hfree : s.dev.alive n = false := by
      simpa using (Option.filter_eq_some_iff.mp hmalloc).2
    have hn := h.shared.holds.not_mem hfree
    have hne {m : Addr} (hm : s.dev.alive m = true) : m ≠ n := by
      rintro rfl
      exact absurd (hm.symm.trans hfree) (by decide)
    have halive {m : Addr} (hm : (s.dev.allocate n).alive m = true) (hmn : m ≠ n) :
        s.dev.alive m = true := by
      simpa [StuHead.allocate, hmn] using hm
    have hkept {m : Addr} (hm : s.dev.alive m = true) : (s.dev.allocate n).alive m = true := by
      simp [StuHead.allocate, hne hm, hm]
    obtain ⟨holds, tags, fresh, owners, once, old, unlinked, freed⟩ := h.shared
    refine h.move ⟨holds.allocate n, fun m hm => ?_, fun m hm => ?_, fun a b ha hb hab => ?_, once,
      fun i hi => Nat.lt_succ_of_lt (old i hi), unlinked, freed⟩ rfl ?_ (fun q _ => ?_) ?_
    · have hmn := ne_of_mem_of_not_mem hm hn
      simpa [StuHead.allocate, Function.update_of_ne hmn] using tags m hm
    · by_cases hmn : m = n
      · subst hmn
        simp only [Function.update_self]
        exact ⟨Nat.lt_succ_self _, fun hi => Nat.lt_irrefl _ (old _ hi)⟩
      · simp only [Function.update_of_ne hmn]
        obtain ⟨hlt, hnew⟩ := fresh m (halive hm hmn)
        exact ⟨Nat.lt_succ_of_lt hlt, hnew⟩
    · -- the new owner is none of the old ones
      by_cases han : a = n
      · by_cases hbn : b = n
        · rw [han, hbn]
        · have hlt := (fresh b (halive hb hbn)).1
          simp only [han, Function.update_self, Function.update_of_ne hbn] at hab
          omega
      · have hlt := (fresh a (halive ha han)).1
        by_cases hbn : b = n
        · simp only [hbn, Function.update_self, Function.update_of_ne han] at hab
          omega
        · simp only [Function.update_of_ne han, Function.update_of_ne hbn] at hab
          exact owners a b (halive ha han) (halive hb hbn) hab
    · exact ⟨by simp, by simp, hn⟩
    · have htagged (i : Nat) (m : Addr) (ht : s.Tagged i m) :
          ((s.dev.allocate n).alive m = true ∧ Function.update s.owner n s.serial m = i) ∨
            i ∈ s.delivered := by
        rcases ht with ⟨hm, howner⟩ | hi
        · exact Or.inl ⟨hkept hm, by rw [Function.update_of_ne (hne hm), howner]⟩
        · exact Or.inr hi
      refine (h.place q).transfer htagged (fun m ht => htagged _ m ht) fun m _ hm hnot => ?_
      exact ⟨hkept hm, Function.update_of_ne (hne hm) _ _, hnot, rfl⟩
    · intro m hm q _ hq
      obtain rfl := Option.some.inj hm
      exact hne ((h.place q).held hq).1 rfl

/-- A writer writes to its own node. -/
theorem store_inv (h : s.Inv nodes) {p : P} {n : Addr} (hheld : (s.pc p).holds = some n)
    (stu : Stu) {pc : Pc} (hpc : (∃ ret, pc = .out ret) ∨ pc = .filled n (s.owner n)) :
    ({ s.goto p pc with dev := s.dev.store n ⟨s.owner n, stu⟩ } : System P).Inv nodes := by
  obtain ⟨halive, hn⟩ := (h.place p).held hheld
  obtain ⟨holds, tags, fresh, owners, once, old, unlinked, freed⟩ := h.shared
  refine h.move ⟨holds.store n _, fun m hm => ?_, fresh, owners, once, old, unlinked, freed⟩
    rfl ?_ (fun q hq => ?_) ?_
  · simp only [StuHead.store_of_ne _ (ne_of_mem_of_not_mem hm hn)]
    exact tags m hm
  · rcases hpc with ⟨ret, rfl⟩ | rfl
    · trivial
    · exact ⟨halive, rfl, hn, by simp⟩
  · refine (h.place q).transfer (fun _ _ ht => ht) (fun m ht => ?_) fun m hm hma hnot => ?_
    · by_cases hmn : m = n
      · subst hmn
        exact Or.inl ⟨halive, congrArg Record.id (StuHead.store_self s.dev m ⟨s.owner m, stu⟩).symm⟩
      · simp only [StuHead.store_of_ne _ hmn]
        exact ht
    · have hmn : m ≠ n := by
        rintro rfl
        exact hq (h.apart q p m hm hheld)
      exact ⟨hma, rfl, hnot, by simp only [StuHead.store_of_ne _ hmn]⟩
  · intro m hm q hq hqm
    rcases hpc with ⟨ret, rfl⟩ | rfl
    · cases hm
    · obtain rfl := Option.some.inj hm
      exact hq (h.apart q p n hqm hheld)

theorem copyFromUser_inv (h : s.Inv nodes) {p : P} {n : Addr} {id : Nat} {buf : Stu}
    (hpc : s.pc p = .allocated n id buf) (fate : Fate) :
    (s.copyFromUser p n id buf fate).Inv nodes := by
  have hplace := h.place p
  rw [hpc] at hplace
  obtain rfl := hplace.2.1
  have hheld : (s.pc p).holds = some n := by rw [hpc]; rfl
  unfold copyFromUser
  by_cases hleft : min fate.left sizeofStu ≠ 0
  · rw [if_pos hleft]
    exact store_inv h hheld fate.junk (Or.inl ⟨_, rfl⟩)
  · rw [if_neg hleft]
    exact store_inv h hheld buf (Or.inr rfl)

theorem addTail_inv (h : s.Inv nodes) {p : P} {n : Addr} {id : Nat}
    (hpc : s.pc p = .filled n id) : (s.addTail p n).Inv (nodes ++ [n]) := by
  have hplace := h.place p
  rw [hpc] at hplace
  obtain ⟨halive, howner, hn, hid⟩ := hplace
  have hheld : (s.pc p).holds = some n := by rw [hpc]; rfl
  obtain ⟨holds, tags, fresh, owners, once, old, unlinked, freed⟩ := h.shared
  refine h.move ⟨holds.append hn halive, fun m hm => ?_, fresh, owners, once, old, unlinked, freed⟩
    rfl trivial (fun q hq => ?_) fun m hm => by cases hm
  · rcases List.mem_append.mp hm with hmem | hmem
    · exact tags m hmem
    · rw [List.mem_singleton.mp hmem]
      exact hid.trans howner.symm
  · refine (h.place q).transfer (fun _ _ ht => ht) (fun _ ht => ht) fun m hm hma hnot => ?_
    refine ⟨hma, rfl, ?_, rfl⟩
    rw [List.mem_append, List.mem_singleton, not_or]
    refine ⟨hnot, ?_⟩
    rintro rfl
    exact hq (h.apart q p m hm hheld)

omit [DecidableEq P] in
/-- A reader that finds at the front the record it has copied holds the first node. -/
theorem eq_first_of_tagged {b n : Addr} {rest : List Addr} (h : s.Shared (b :: rest)) {i : Nat}
    (ht : s.Tagged i n) (hi : (s.dev.stu b).id = i) : n = b := by
  have halive := h.holds.alive b List.mem_cons_self
  have howner : s.owner b = i := (h.tags b List.mem_cons_self).symm.trans hi
  rcases ht with ⟨hn, hni⟩ | hmem
  · exact h.owners n b hn halive (hni.trans howner.symm)
  · rw [← howner] at hmem
    exact absurd hmem (h.fresh b halive).2

theorem unlinkAndFree_inv (h : s.Inv nodes) {p : P} {n : Addr} {copy : Record}
    (hpc : s.pc p = .copied n copy)
    (hfront : s.first?.map (fun n => (s.dev.stu n).id) = some copy.id) :
    ∃ rest, (s.unlinkAndFree p n copy).Inv rest := by
  have hplace := h.place p
  rw [hpc] at hplace
  rw [h.shared.first] at hfront
  cases nodes with
  | nil => cases hfront
  | cons b rest =>
    have hid : (s.dev.stu b).id = copy.id := Option.some.inj hfront
    obtain rfl := eq_first_of_tagged h.shared hplace hid
    have halive := h.shared.holds.alive n List.mem_cons_self
    have howner : s.owner n = copy.id := (h.shared.tags n List.mem_cons_self).symm.trans hid
    have hfirst := h.shared.first
    obtain ⟨hrest, -⟩ := List.nodup_cons.mp h.shared.holds.nodup
    obtain ⟨hlt, hnew⟩ := h.shared.fresh n halive
    obtain ⟨holds, tags, fresh, owners, once, old, unlinked, freed⟩ := h.shared
    have hkept {m : Addr} (hmn : m ≠ n) (hm : s.dev.alive m = true) :
        (s.dev.unlinkFirst.kfree n).alive m = true := by
      simp [StuHead.kfree, StuHead.unlinkFirst, hmn, hm]
    have hold {m : Addr} (hm : (s.dev.unlinkFirst.kfree n).alive m = true) :
        m ≠ n ∧ s.dev.alive m = true := by
      by_cases hmn : m = n
      · simp [StuHead.kfree, hmn] at hm
      · exact ⟨hmn, by simpa [StuHead.kfree, StuHead.unlinkFirst, hmn] using hm⟩
    have hother {m : Addr} (hmn : m ≠ n) (hm : s.dev.alive m = true) : s.owner m ≠ copy.id := by
      rw [← howner]
      exact fun heq => hmn (owners m n hm halive heq)
    rw [howner] at hlt hnew
    refine ⟨rest, h.move ⟨holds.unlinkFirst.kfree hrest, fun m hm => ?_, fun m hm => ?_,
      fun a b ha hb hab => ?_, ?_, fun i hi => ?_, ?_, ?_⟩ rfl trivial (fun q _ => ?_)
      fun m hm => by cases hm⟩
    · exact tags m (List.mem_cons_of_mem n hm)
    · obtain ⟨hmn, hm⟩ := hold hm
      obtain ⟨hlt', hnew'⟩ := fresh m hm
      refine ⟨hlt', fun hmem => ?_⟩
      rcases List.mem_append.mp hmem with hmem | hmem
      · exact hnew' hmem
      · exact hother hmn hm (List.mem_singleton.mp hmem)
    · exact owners a b (hold ha).2 (hold hb).2 hab
    · refine List.nodup_append.mpr ⟨once, List.nodup_singleton _, fun i hi j hj => ?_⟩
      rw [List.mem_singleton.mp hj]
      exact ne_of_mem_of_not_mem hi hnew
    · rcases List.mem_append.mp hi with hmem | hmem
      · exact old i hmem
      · rw [List.mem_singleton.mp hmem]
        exact hlt
    · simp [unlinkAndFree, unlinked, hfirst, howner]
    · simp [unlinkAndFree, freed, halive, howner]
    · have htagged (i : Nat) (m : Addr) (ht : s.Tagged i m) :
          (s.unlinkAndFree p n copy).Tagged i m := by
        rcases ht with ⟨hm, hmi⟩ | hi
        · by_cases hmn : m = n
          · subst hmn
            rw [howner] at hmi
            exact Or.inr (List.mem_append_right _ (List.mem_singleton.mpr hmi.symm))
          · exact Or.inl ⟨hkept hmn hm, hmi⟩
        · exact Or.inr (List.mem_append_left _ hi)
      refine (h.place q).transfer htagged (fun m ht => htagged _ m ht) fun m _ hm hnot => ?_
      have hmn : m ≠ n := by
        rintro rfl
        exact hnot List.mem_cons_self
      exact ⟨hkept hmn hm, rfl, fun hmem => hnot (List.mem_cons_of_mem n hmem), rfl⟩

/-- A reader that finds something else there does harm at once. -/
theorem unlinkAndFree_unsafe (h : s.Inv nodes) {p : P} {n : Addr} {copy : Record}
    (hpc : s.pc p = .copied n copy)
    (hfront : s.first?.map (fun n => (s.dev.stu n).id) ≠ some copy.id) :
    ¬ (s.unlinkAndFree p n copy).Safe := by
  intro hsafe
  have hplace := h.place p
  rw [hpc] at hplace
  have hfirst := h.shared.first
  have hnotHead := hsafe.notHead
  have hnone := hsafe.freedOnce.1
  have hunlinked := hsafe.unlinkedFirst
  simp only [unlinkAndFree, List.mem_append, List.mem_singleton, not_or] at hnotHead hnone hunlinked
  cases nodes with
  | nil => exact hnotHead.2 (by rw [hfirst]; rfl)
  | cons b rest =>
    rw [hfirst] at hfront hunlinked
    have hb := h.shared.holds.alive b List.mem_cons_self
    have hbid := h.shared.tags b List.mem_cons_self
    cases halive : s.dev.alive n with
    | false => exact hnone.2 (by simp [halive])
    | true =>
      have hmem := hunlinked (some (s.owner n)) (Or.inr (by simp [halive]))
      rcases hmem with hmem | heq
      · -- the node has not been removed
        rw [h.shared.unlinked] at hmem
        exact (h.shared.fresh n halive).2 (by simpa using hmem)
      · obtain rfl := h.shared.owners n b halive hb (Option.some.inj heq)
        rcases hplace with ⟨-, howner⟩ | hdelivered
        · exact hfront (congrArg some (hbid.trans howner))
        · -- its record is delivered for the second time
          have honce := hsafe.deliveredOnce
          simp only [unlinkAndFree] at honce
          exact (List.nodup_append.mp honce).2.2 _ hdelivered _ (List.mem_singleton_self _) rfl

theorem step_inv (h : s.Inv nodes) {a : Act P} (ha : s.Undisturbed a) :
    ∃ nodes', (s.step a).Inv nodes' := by
  cases a with
  | read p cnt =>
    cases hpc : s.pc p <;> simp only [step, hpc]
    case out => exact ⟨nodes, testAndPick_inv h p cnt⟩
    all_goals exact ⟨nodes, h⟩
  | write p cnt buf =>
    cases hpc : s.pc p <;> simp only [step, hpc]
    case out => exact ⟨nodes, testNum_inv h p cnt buf⟩
    all_goals exact ⟨nodes, h⟩
  | proceed p fate =>
    have hplace := h.place p
    cases hpc : s.pc p <;> simp only [step, hpc] <;> rw [hpc] at hplace
    case out => exact ⟨nodes, h⟩
    case picked n => exact ⟨nodes, copyToUser_inv h p hplace fate.left⟩
    case copied n copy => exact unlinkAndFree_inv h hpc (ha n copy hpc)
    case lost => exact ⟨nodes, h⟩
    case tested buf => exact ⟨nodes, kmalloc_inv h p buf fate.choice⟩
    case allocated n id buf => exact ⟨nodes, copyFromUser_inv h hpc fate⟩
    case filled n id => exact ⟨nodes ++ [n], addTail_inv h hpc⟩

theorem step_unsafe (h : s.Inv nodes) {a : Act P} (ha : ¬ s.Undisturbed a) : ¬ (s.step a).Safe := by
  cases a with
  | read p cnt => exact absurd trivial ha
  | write p cnt buf => exact absurd trivial ha
  | proceed p fate =>
    simp only [Undisturbed, not_forall] at ha
    obtain ⟨n, copy, hpc, hfront⟩ := ha
    simp only [step, hpc]
    exact unlinkAndFree_unsafe h hpc hfront

end System

theorem start_inv (P : Type*) [DecidableEq P] (links : Links Ptr) (stu : Addr → Record) :
    (machine P links stu).init.Inv [] where
  shared :=
    { holds := StuHead.init_holds links stu
      tags := fun _ h => absurd h List.not_mem_nil
      fresh := fun _ h => absurd h (by simp [machine, StuHead.init])
      owners := fun _ _ h => absurd h (by simp [machine, StuHead.init])
      once := List.nodup_nil
      old := fun _ h => absurd h List.not_mem_nil
      unlinked := rfl
      freed := rfl }
  place _ := trivial
  apart _ _ _ h := by cases h

/-- Every state of a run is safe if and only if each reader that comes to `list_del` finds at
the front the record that it has copied. -/
theorem concurrent_safe_iff (P : Type*) [DecidableEq P] (links : Links Ptr) (stu : Addr → Record)
    (acts : List (Act P)) :
    (∀ past, past <+: acts → ((machine P links stu).run past).Safe) ↔
      (machine P links stu).Meets System.Undisturbed acts := by
  apply Machine.safe_iff_meets (I := fun s => ∃ nodes, s.Inv nodes)
  · exact ⟨[], start_inv P links stu⟩
  · rintro s a ha ⟨nodes, h⟩
    exact System.step_inv h ha
  · rintro s ⟨nodes, h⟩
    exact h.shared.safe
  · rintro s a ha ⟨nodes, h⟩
    exact System.step_unsafe h ha

def blank : Stu := ⟨fun _ => 0, 0⟩

/-- A record is written, and two readers have both copied it before either removes it. -/
def overlappingReads : List (Act Bool) :=
  let fate : Fate := ⟨0, blank, some ⟨0, by decide⟩⟩
  [.write false sizeofStu blank, .proceed false fate, .proceed false fate, .proceed false fate,
    .read false sizeofStu, .read true sizeofStu, .proceed false fate, .proceed true fate,
    .proceed false fate, .proceed true fate]

theorem overlappingReads_unsafe :
    ¬ ((machine Bool ⟨id, id⟩ fun _ => ⟨0, blank⟩).run overlappingReads).Safe := by
  intro h
  exact h.notHead (by decide)

end KernelDrivers.Dlist.Concurrent
