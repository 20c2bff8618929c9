import KernelDrivers.Procfs.Demo

namespace KernelDrivers.Procfs.Concurrent

open Framework Kernel

/-- Where a process is in `usr_proc_write`, and its local variables. -/
inductive Pc where
  | idle
  | tested (buffer : List Byte) (count : Nat)
  | allocated (buffer : List Byte) (count : Nat) (node : Addr)
  | copied (buffer : List Byte) (count : Nat) (node : Addr)

/-- What a process does next: the tests on `count` and `total`, the two allocations, the copy,
or appending its node and adding to `total`. -/
inductive Act (P : Type*) where
  | enter (p : P) (buffer : List Byte)
  | alloc (p : P) (choices : Choices)
  | copy (p : P) (fate : CopyFate)
  | append (p : P)

/-- The state of the driver, none once something has gone wrong, and the processes. -/
structure State (P : Type*) where
  head : Option ProcHead
  pc : P → Pc

variable {P : Type*} [DecidableEq P]

def State.move (s : State P) (p : P) (head : Option ProcHead) (pc : Pc) : State P :=
  ⟨head, Function.update s.pc p pc⟩

/-- A step of a process that is somewhere else changes nothing. -/
def step (s : State P) : Act P → State P
  | .enter p buffer =>
    match s.head, s.pc p with
    | some head, .idle =>
      match testCount head.total buffer.length with
      | .error _ => s
      | .ok count => s.move p (some head) (.tested buffer count)
    | _, _ => s
  | .alloc p choices =>
    match s.head, s.pc p with
    | some head, .tested buffer count =>
      match head.store.newNode (sizeAdd count 1) choices with
      | (store, none) => s.move p (some ⟨store, head.total⟩) .idle
      | (store, some node) =>
        s.move p (some ⟨store, head.total⟩) (.allocated buffer count node)
    | _, _ => s
  | .copy p fate =>
    match s.head, s.pc p with
    | some head, .allocated buffer count node =>
      match head.store.copyFromUser (head.store.kbuf node) (buffer.take count) fate with
      | none => s.move p none .idle
      | some (store, left) =>
        s.move p (some ⟨store, head.total⟩)
          (if left ≠ 0 then .idle else .copied buffer count node)
    | _, _ => s
  | .append p =>
    match s.head, s.pc p with
    | some head, .copied _ count node => s.move p (head.append node count) .idle
    | _, _ => s

def machine (P : Type*) [DecidableEq P] (links : Links Ptr) (kbuf : Addr → Addr)
    (data : Addr → List Byte) : Machine (State P) (Act P) where
  init := ⟨some ⟨.init links kbuf data, 0⟩, fun _ => .idle⟩
  step := step

@[simp] theorem move_head (s : State P) (p : P) (head : Option ProcHead) (pc : Pc) :
    (s.move p head pc).head = head := rfl

@[simp] theorem move_pc_self (s : State P) (p : P) (head : Option ProcHead) (pc : Pc) :
    (s.move p head pc).pc p = pc := by simp [State.move]

theorem move_pc_of_ne (s : State P) {p q : P} (h : q ≠ p) (head : Option ProcHead) (pc : Pc) :
    (s.move p head pc).pc q = s.pc q := by simp [State.move, h]

/-- The steps of a process that runs alone are those of `usr_proc_write`. -/
theorem run_alone {s : State P} {p : P} {head : ProcHead} (hhead : s.head = some head)
    (hp : s.pc p = .idle) {w : Write} {o : Outcome} (hwrite : usrProcWrite head w = some o) :
    ([.enter p w.buffer, .alloc p w.choices, .copy p w.fate, .append p].foldl step s).head =
      some o.head := by
  unfold usrProcWrite at hwrite
  cases htested : testCount head.total w.buffer.length with
  | error ret =>
    rw [htested] at hwrite
    obtain rfl := Option.some.inj hwrite
    simp [step, hhead, hp, htested]
  | ok count =>
    cases hnew : head.store.newNode (sizeAdd count 1) w.choices with
    | mk store node =>
      simp only [htested, hnew] at hwrite
      cases node with
      | none =>
        obtain rfl := Option.some.inj hwrite
        simp [step, hhead, hp, htested, hnew]
      | some node =>
        obtain ⟨copied, hcopy, hrest⟩ := Option.bind_eq_some_iff.mp hwrite
        by_cases hleft : copied.2 ≠ 0
        · rw [if_pos hleft] at hrest
          obtain rfl := Option.some.inj hrest
          simp [step, hhead, hp, htested, hnew, hcopy, hleft]
        · rw [if_neg hleft] at hrest
          obtain ⟨head', happend, rfl⟩ := Option.map_eq_some_iff.mp hrest
          simp [step, hhead, hp, htested, hnew, hcopy, hleft, happend]

/-- The node of a process that has one and has not appended it. -/
def Pc.node : Pc → Option Addr
  | .allocated _ _ node => some node
  | .copied _ _ node => some node
  | _ => none

/-- The count of a process is one that the tests let through. -/
def Counted (buffer : List Byte) (count : Nat) : Prop :=
  0 < count ∧ count ≤ buffer.length ∧ count ≤ USER_LIMITS

theorem Counted.take_length {buffer : List Byte} {count : Nat} (h : Counted buffer count) :
    (buffer.take count).length = count := by
  rw [List.length_take, Nat.min_eq_left h.2.1]

/-- A process that has a node has it outside the list, and has filled its buffer when it has
copied the user's bytes. -/
def Pc.Ready (store : Store) (items : List Item) : Pc → Prop
  | .idle => True
  | .tested buffer count => Counted buffer count
  | .allocated buffer count node => Counted buffer count ∧ store.Loose items node count
  | .copied buffer count node => Counted buffer count ∧ store.Loose items node count ∧
      ∃ last, store.data (store.kbuf node) = buffer.take count ++ [last]

/-- Two nodes and their buffers are four blocks. -/
structure Apart (store : Store) (n m : Addr) : Prop where
  nodes : n ≠ m
  kbufs : store.kbuf n ≠ store.kbuf m
  left : n ≠ store.kbuf m
  right : store.kbuf n ≠ m

/-- Between the steps of the processes: the list is accounted for, and the processes have
nodes of their own outside it. -/
structure Inv (s : State P) (head : ProcHead) (items : List Item) : Prop where
  state : s.head = some head
  accounted : head.Accounted items
  ready : ∀ p, (s.pc p).Ready head.store items
  apart : ∀ p q n m, p ≠ q → (s.pc p).node = some n → (s.pc q).node = some m →
    Apart head.store n m

section Frames

variable {store store' : Store} {items : List Item} {n m : Addr} {pc : Pc}

theorem Pc.Ready.loose (h : pc.Ready store items) (hn : pc.node = some n) :
    ∃ count, store.Loose items n count := by
  cases pc with
  | idle => cases hn
  | tested buffer count => cases hn
  | allocated buffer count node =>
    obtain rfl := Option.some.inj hn
    exact ⟨count, h.2⟩
  | copied buffer count node =>
    obtain rfl := Option.some.inj hn
    exact ⟨count, h.2.1⟩

/-- A process is as ready in a memory that agrees about its node and its buffer, with a list
that its node is outside of too. -/
theorem Pc.Ready.congr {items' : List Item} (h : pc.Ready store items)
    (hnode : ∀ n, pc.node = some n →
      Store.Agree store store' n ∧ Store.Agree store store' (store.kbuf n) ∧
        ∀ count, store.Loose items n count → store'.Loose items' n count) :
    pc.Ready store' items' := by
  cases pc with
  | idle => trivial
  | tested buffer count => exact h
  | allocated buffer count node =>
    obtain ⟨-, -, hloose⟩ := hnode node rfl
    exact ⟨h.1, hloose count h.2⟩
  | copied buffer count node =>
    obtain ⟨hself, hbuffer, hloose⟩ := hnode node rfl
    obtain ⟨hcount, hn, last, hdata⟩ := h
    refine ⟨hcount, hloose count hn, last, ?_⟩
    rw [hself.kbuf, hbuffer.data, hdata]

theorem Apart.congr (h : Apart store n m) (hn : store'.kbuf n = store.kbuf n)
    (hm : store'.kbuf m = store.kbuf m) : Apart store' n m := by
  constructor
  · exact h.nodes
  · rw [hn, hm]
    exact h.kbufs
  · rw [hm]
    exact h.left
  · rw [hn]
    exact h.right

/-- A new node and its buffer are not among the blocks of another process. -/
theorem apart_withNode {count : Nat} (hm : store.Loose items m count) {b : Addr}
    (hn : store.live n = false) (hb : store.live b = false) (size : Nat) :
    Apart (store.withNode n b size) n m := by
  have hpointer := store.withNode_kbuf_self n b size
  have hkept := (Store.withNode_agree hn hb size hm.node).kbuf
  have hmn := Store.ne_of_live hm.node hn
  have hmb := Store.ne_of_live hm.node hb
  have hkn := Store.ne_of_live hm.kbuf hn
  have hkb := Store.ne_of_live hm.kbuf hb
  rw [← hpointer] at hmb hkb
  rw [← hkept] at hkn hkb
  exact ⟨hmn.symm, hkb.symm, hkn.symm, hmb.symm⟩

/-- Writing the buffer of a node leaves the node of another process alone. -/
theorem Apart.agree_write (h : Apart store n m) (bytes : List Byte) :
    Store.Agree store (store.write (store.kbuf n) bytes) m ∧
      Store.Agree store (store.write (store.kbuf n) bytes) (store.kbuf m) :=
  ⟨⟨rfl, Store.write_data_of_ne h.right.symm bytes, rfl⟩,
    ⟨rfl, Store.write_data_of_ne h.kbufs.symm bytes, rfl⟩⟩

/-- A node of another process stays outside the list when `n` joins it. -/
theorem Apart.loose_concat {count size : Nat} (h : Apart store n m)
    (hn : store.Loose items n count) (hm : store.Loose items m size) (text : List Byte) :
    store.Loose (items ++ [⟨n, text⟩]) m size where
  node := hm.node
  kbuf := hm.kbuf
  apart := by
    rw [Store.blocks_concat]
    apply List.nodup_append.mpr
    refine ⟨hn.apart, (List.nodup_append.mp hm.apart).2.1, ?_⟩
    intro a ha c hc heq
    subst heq
    simp only [List.mem_append, List.mem_cons, List.not_mem_nil, or_false] at ha hc
    rcases ha with ha | ha
    · exact hc.elim (hm.ne ha).1 (hm.ne ha).2
    · rcases ha with rfl | rfl
      · exact hc.elim h.kbufs h.right
      · exact hc.elim h.left h.nodes
  size := hm.size

theorem Apart.symm (h : Apart store n m) : Apart store m n :=
  ⟨h.nodes.symm, h.kbufs.symm, h.right.symm, h.left.symm⟩

end Frames

section Steps

variable {s : State P} {head : ProcHead} {items : List Item} {p : P}

/-- What a process finds of another one's node when `p` has taken a step. -/
structure Kept (store store' : Store) (items items' : List Item) (pc : Pc) (m : Addr) : Prop where
  node : Store.Agree store store' m
  kbuf : Store.Agree store store' (store.kbuf m)
  loose : ∀ count, store.Loose items m count → store'.Loose items' m count
  apart : ∀ n, pc.node = some n → Apart store' n m

/-- A step of `p` keeps the invariant when it leaves the nodes of the others alone. -/
theorem Inv.move (h : Inv s head items) {head' : ProcHead} {items' : List Item} {pc : Pc}
    (haccounted : head'.Accounted items') (hready : pc.Ready head'.store items')
    (hothers : ∀ q m, q ≠ p → (s.pc q).node = some m →
      Kept head.store head'.store items items' pc m) :
    Inv (s.move p (some head') pc) head' items' where
  state := rfl
  accounted := haccounted
  ready q := by
    by_cases hq : q = p
    · rw [hq, move_pc_self]
      exact hready
    · rw [move_pc_of_ne s hq]
      apply (h.ready q).congr
      intro m hm
      have hkept := hothers q m hq hm
      exact ⟨hkept.node, hkept.kbuf, hkept.loose⟩
  apart q r n m hne hn hm := by
    by_cases hq : q = p
    · have hr : r ≠ p := by
        intro heq
        exact hne (hq.trans heq.symm)
      rw [hq, move_pc_self] at hn
      rw [move_pc_of_ne s hr] at hm
      exact (hothers r m hr hm).apart n hn
    · rw [move_pc_of_ne s hq] at hn
      by_cases hr : r = p
      · rw [hr, move_pc_self] at hm
        exact ((hothers q n hq hn).apart m hm).symm
      · rw [move_pc_of_ne s hr] at hm
        have hkn := (hothers q n hq hn).node.kbuf
        have hkm := (hothers r m hr hm).node.kbuf
        exact (h.apart q r n m hne hn hm).congr hkn hkm

omit [DecidableEq P] in
/-- A step that leaves all memory in use as it is. -/
theorem Inv.kept (h : Inv s head items) {store' : Store} {pc : Pc} {q : P} {m : Addr}
    (hm : (s.pc q).node = some m)
    (hagree : ∀ a, head.store.live a = true → Store.Agree head.store store' a)
    (hapart : ∀ n, pc.node = some n → Apart store' n m) :
    Kept head.store store' items items pc m := by
  obtain ⟨count, hloose⟩ := (h.ready q).loose hm
  have hnode := hagree m hloose.node
  have hkbuf := hagree (head.store.kbuf m) hloose.kbuf
  have hlist := h.accounted.holds.kbuf_eq hagree
  exact ⟨hnode, hkbuf, fun count hn => hn.congr hlist hnode hkbuf, hapart⟩

theorem step_enter (h : Inv s head items) (buffer : List Byte) :
    Inv (step s (.enter p buffer)) head items := by
  unfold step
  simp only [h.state]
  cases hp : s.pc p with
  | idle =>
    rcases h.accounted.testCount_cases buffer.length with
      ⟨-, htested⟩ | ⟨-, -, htested⟩ | ⟨hcount, hroom, htested⟩
    · simp only [htested]
      exact h
    · simp only [htested]
      exact h
    · simp only [htested]
      have hcounted : Counted buffer (min buffer.length (USER_LIMITS - head.total)) := by
        refine ⟨?_, Nat.min_le_left _ _, ?_⟩
        · omega
        · omega
      exact h.move h.accounted hcounted fun q m _ hm =>
        h.kept hm (fun a _ => ⟨rfl, rfl, rfl⟩) nofun
  | tested buffer count => exact h
  | allocated buffer count node => exact h
  | copied buffer count node => exact h

theorem step_alloc (h : Inv s head items) (choices : Choices) :
    ∃ head', Inv (step s (.alloc p choices)) head' items := by
  unfold step
  simp only [h.state]
  cases hp : s.pc p with
  | idle => exact ⟨head, h⟩
  | allocated buffer count node => exact ⟨head, h⟩
  | copied buffer count node => exact ⟨head, h⟩
  | tested buffer count =>
    have hready := h.ready p
    rw [hp] at hready
    simp only [sizeAdd_one hready.2.2]
    rcases head.store.newNode_cases (count + 1) choices with
      ⟨-, store', hnew, hsame⟩ | ⟨-, n, b, hn, hb, hbn, hnew⟩
    · simp only [hnew]
      refine ⟨_, h.move (h.accounted.of_same hsame) trivial fun q m _ hm => ?_⟩
      exact h.kept hm (fun a ha => hsame.agree ha) nofun
    · simp only [hnew]
      have hholds := h.accounted.holds
      have haccounted := h.accounted.of_holds (Store.withNode_holds hholds hn hb (count + 1))
      refine ⟨_, h.move haccounted ⟨hready, Store.withNode_loose hholds hn hb hbn count⟩
        fun q m _ hm => ?_⟩
      apply h.kept hm (fun a ha => Store.withNode_agree hn hb _ ha)
      intro n' hn'
      obtain rfl := Option.some.inj hn'
      obtain ⟨size, hloose⟩ := (h.ready q).loose hm
      exact apart_withNode hloose hn hb (count + 1)

omit [DecidableEq P] in
/-- A process that has a node for a count it is ready to copy. -/
theorem Inv.allocated (h : Inv s head items) {buffer : List Byte} {count : Nat} {node : Addr}
    (hp : s.pc p = .allocated buffer count node) :
    Counted buffer count ∧ (buffer.take count).length = count ∧
      head.store.Loose items node (buffer.take count).length := by
  have hready := h.ready p
  rw [hp] at hready
  have hlen := hready.1.take_length
  exact ⟨hready.1, hlen, hlen.symm ▸ hready.2⟩

/-- What the copy of a process does. -/
theorem copy_eq (h : Inv s head items) {buffer : List Byte} {count : Nat} {node : Addr}
    (hp : s.pc p = .allocated buffer count node) (fate : CopyFate) :
    ∃ bytes, step s (.copy p fate) =
        s.move p (some ⟨head.store.write (head.store.kbuf node) bytes, head.total⟩)
          (if fate.residue (buffer.take count).length ≠ 0 then .idle
            else .copied buffer count node) ∧
      bytes.length = (buffer.take count).length + 1 ∧
      (fate.residue (buffer.take count).length = 0 →
        ∃ last, bytes = buffer.take count ++ [last]) := by
  obtain ⟨-, -, hloose⟩ := h.allocated hp
  obtain ⟨bytes, hcopy, hsize, hfilled⟩ := Store.copyFromUser_loose hloose fate
  refine ⟨bytes, ?_, hsize, hfilled⟩
  unfold step
  simp only [h.state, hp, hcopy]

theorem step_copy (h : Inv s head items) (fate : CopyFate) :
    ∃ head', Inv (step s (.copy p fate)) head' items := by
  cases hp : s.pc p with
  | idle => exact ⟨head, by simpa only [step, h.state, hp] using h⟩
  | tested buffer count => exact ⟨head, by simpa only [step, h.state, hp] using h⟩
  | copied buffer count node => exact ⟨head, by simpa only [step, h.state, hp] using h⟩
  | allocated buffer count node =>
    obtain ⟨hcounted, hlen, hloose⟩ := h.allocated hp
    obtain ⟨bytes, hcopy, hsize, hfilled⟩ := copy_eq h hp fate
    rw [hcopy]
    have haccounted := h.accounted.of_holds (hloose.holds_write h.accounted.holds bytes)
    refine ⟨_, h.move haccounted ?_ fun q m hq hm => ?_⟩
    · by_cases hleft : fate.residue (buffer.take count).length ≠ 0
      · rw [if_pos hleft]
        trivial
      · rw [if_neg hleft]
        obtain ⟨last, rfl⟩ := hfilled (not_not.mp hleft)
        have hkept := hloose.write hsize
        rw [hlen] at hkept
        exact ⟨hcounted, hkept, last, Store.write_data_self _ _ _⟩
    · have hapart := h.apart p q node m hq.symm (by rw [hp]; rfl) hm
      obtain ⟨hnode, hkbuf⟩ := hapart.agree_write bytes
      refine ⟨hnode, hkbuf, fun size hn => hn.congr (fun _ _ => rfl) hnode hkbuf, ?_⟩
      intro n hn
      by_cases hleft : fate.residue (buffer.take count).length ≠ 0
      · rw [if_pos hleft] at hn
        cases hn
      · rw [if_neg hleft] at hn
        obtain rfl := Option.some.inj hn
        exact hapart.congr rfl rfl

omit [DecidableEq P] in
/-- A process that has copied its bytes is ready to append them. -/
theorem Inv.copied (h : Inv s head items) {buffer : List Byte} {count : Nat} {node : Addr}
    (hp : s.pc p = .copied buffer count node) :
    Counted buffer count ∧ (buffer.take count).length = count ∧
      head.store.Loose items node (buffer.take count).length ∧
      ∃ last, head.store.data (head.store.kbuf node) = buffer.take count ++ [last] := by
  have hready := h.ready p
  rw [hp] at hready
  have hlen := hready.1.take_length
  exact ⟨hready.1, hlen, hlen.symm ▸ hready.2.1, hready.2.2⟩

theorem append_eq (h : Inv s head items) {buffer : List Byte} {count : Nat} {node : Addr}
    (hp : s.pc p = .copied buffer count node) :
    step s (.append p) = s.move p (some (head.appended node (buffer.take count))) .idle ∧
      (head.appended node (buffer.take count)).total = head.total + count := by
  obtain ⟨hcounted, hlen, hloose, last, hdata⟩ := h.copied hp
  have hcount : (buffer.take count).length ≤ USER_LIMITS := hlen.trans_le hcounted.2.2
  have happend := h.accounted.append_eq hloose hdata hcount
  rw [hlen] at happend
  refine ⟨?_, congrArg (head.total + ·) hlen⟩
  unfold step
  simp only [h.state, hp, happend]

/-- Appending what the limit has room for. -/
theorem step_append (h : Inv s head items) {buffer : List Byte} {count : Nat} {node : Addr}
    (hp : s.pc p = .copied buffer count node) (hroom : head.total + count ≤ USER_LIMITS) :
    Inv (step s (.append p)) (head.appended node (buffer.take count))
      (items ++ [⟨node, buffer.take count⟩]) := by
  obtain ⟨hcounted, hlen, hloose, last, hdata⟩ := h.copied hp
  have hbytes : buffer.take count ≠ [] := by
    apply List.ne_nil_of_length_pos
    rw [hlen]
    exact hcounted.1
  rw [← hlen] at hroom
  have haccounted := h.accounted.append hloose hdata hbytes hroom
  rw [(append_eq h hp).1]
  have hidle : Pc.idle.Ready (head.appended node (buffer.take count)).store
      (items ++ [⟨node, buffer.take count⟩]) := trivial
  apply h.move haccounted hidle
  intro q m hq hm
  have hapart := h.apart p q node m hq.symm (by rw [hp]; rfl) hm
  obtain ⟨hnode, hkbuf⟩ := hapart.agree_write (buffer.take count ++ [0])
  refine ⟨hnode.link node, hkbuf.link node, fun size hn => ?_, nofun⟩
  have hlonger := hapart.loose_concat hloose hn (buffer.take count)
  exact hlonger.congr (fun _ _ => rfl) (hnode.link node) (hkbuf.link node)

end Steps

/-- A process appends only what the limit has room for. -/
def HasRoom (s : State P) : Act P → Prop
  | .append p => ∀ head buffer count node, s.head = some head →
      s.pc p = .copied buffer count node → head.total + count ≤ USER_LIMITS
  | _ => True

/-- `total` is within the limit and counts the bytes in the list. -/
def Safe (s : State P) : Prop :=
  ∃ head items, s.head = some head ∧ head.store.Holds items ∧ head.total ≤ USER_LIMITS ∧
    head.total = (items.map Item.text).flatten.length

section Runs

variable {s : State P} {head : ProcHead} {items : List Item} {p : P}

theorem step_inv {a : Act P} (hc : HasRoom s a) (h : Inv s head items) :
    ∃ head' items', Inv (step s a) head' items' := by
  cases a with
  | enter p buffer => exact ⟨head, items, step_enter h buffer⟩
  | alloc p choices =>
    obtain ⟨head', h'⟩ := step_alloc (p := p) h choices
    exact ⟨head', items, h'⟩
  | copy p fate =>
    obtain ⟨head', h'⟩ := step_copy (p := p) h fate
    exact ⟨head', items, h'⟩
  | append p =>
    cases hp : s.pc p with
    | copied buffer count node =>
      exact ⟨_, _, step_append h hp (hc head buffer count node h.state hp)⟩
    | idle => exact ⟨head, items, by simpa only [step, h.state, hp] using h⟩
    | tested buffer count => exact ⟨head, items, by simpa only [step, h.state, hp] using h⟩
    | allocated buffer count node => exact ⟨head, items, by simpa only [step, h.state, hp] using h⟩

omit [DecidableEq P] in
theorem Inv.safe (h : Inv s head items) : Safe s :=
  ⟨head, items, h.state, h.accounted.holds, h.accounted.limit, h.accounted.total⟩

/-- Appending what the limit has no room for makes `total` exceed it. -/
theorem step_harm {a : Act P} (hc : ¬ HasRoom s a) (h : Inv s head items) : ¬ Safe (step s a) := by
  cases a with
  | enter p buffer => exact absurd trivial hc
  | alloc p choices => exact absurd trivial hc
  | copy p fate => exact absurd trivial hc
  | append p =>
    simp only [HasRoom, not_forall, exists_prop] at hc
    obtain ⟨head', buffer, count, node, hhead, hp, hover⟩ := hc
    obtain rfl := Option.some.inj (hhead.symm.trans h.state)
    obtain ⟨happend, htotal⟩ := append_eq h hp
    rw [happend]
    intro hsafe
    obtain ⟨next, items', hnext, -, hlimit, -⟩ := hsafe
    obtain rfl := Option.some.inj hnext
    omega

theorem init_inv (P : Type*) [DecidableEq P] (links : Links Ptr) (kbuf : Addr → Addr)
    (data : Addr → List Byte) :
    Inv (machine P links kbuf data).init ⟨.init links kbuf data, 0⟩ [] where
  state := rfl
  accounted := ⟨Store.init_holds links kbuf data, rfl, Nat.zero_le _, nofun⟩
  ready _ := trivial
  apart _ _ _ _ _ hn := absurd hn nofun

/-- In all states of a run of any processes `total` is within the limit and counts the bytes
in the list, if and only if no process appends more than the limit has room for by then. -/
theorem concurrent_quota_iff (P : Type*) [DecidableEq P] (links : Links Ptr)
    (kbuf : Addr → Addr) (data : Addr → List Byte) (acts : List (Act P)) :
    (∀ past, past <+: acts → Safe ((machine P links kbuf data).run past)) ↔
      (machine P links kbuf data).Meets HasRoom acts := by
  apply Machine.safe_iff_meets (I := fun s => ∃ head items, Inv s head items)
    ⟨_, _, init_inv P links kbuf data⟩
  · intro s a hc h
    obtain ⟨head, items, hinv⟩ := h
    exact step_inv hc hinv
  · intro s h
    obtain ⟨head, items, hinv⟩ := h
    exact hinv.safe
  · intro s a hc h
    obtain ⟨head, items, hinv⟩ := h
    exact step_harm hc hinv

/-- The steps of a process up to its append, all of them successful. -/
def prepare (p : P) (buffer : List Byte) (node kbuf : Addr) : List (Act P) :=
  [.enter p buffer, .alloc p ⟨some node, some kbuf⟩, .copy p .success]

theorem enter_eq (h : Inv s head items) (hp : s.pc p = .idle) {buffer : List Byte}
    (hbuffer : buffer ≠ []) (hroom : head.total < USER_LIMITS) :
    step s (.enter p buffer) = s.move p (some head)
      (.tested buffer (min buffer.length (USER_LIMITS - head.total))) := by
  have hpos := List.length_pos_iff.mpr hbuffer
  rcases h.accounted.testCount_cases buffer.length with
    ⟨hnil, -⟩ | ⟨-, hfull, -⟩ | ⟨-, -, htested⟩
  · omega
  · omega
  · simp only [step, h.state, hp, htested]

theorem alloc_eq (hs : s.head = some head) {buffer : List Byte} {count : Nat}
    (hp : s.pc p = .tested buffer count) (hcount : count ≤ USER_LIMITS) {n b : Addr}
    (hn : head.store.live n = false) (hb : head.store.live b = false) (hbn : b ≠ n) :
    step s (.alloc p ⟨some n, some b⟩) = s.move p
      (some ⟨head.store.withNode n b (count + 1), head.total⟩) (.allocated buffer count n) := by
  simp only [step, hs, hp, sizeAdd_one hcount, Store.newNode_fresh hn hb hbn]

/-- A process alone gets through to its append. -/
theorem prepare_copied (h : Inv s head items) (hp : s.pc p = .idle) {buffer : List Byte}
    (hbuffer : buffer ≠ []) (hroom : head.total < USER_LIMITS) {n b : Addr}
    (hn : head.store.live n = false) (hb : head.store.live b = false) (hbn : b ≠ n) :
    ∃ head', Inv ((prepare p buffer n b).foldl step s) head' items ∧
      head'.total = head.total ∧
      ((prepare p buffer n b).foldl step s).pc p =
        .copied buffer (min buffer.length (USER_LIMITS - head.total)) n ∧
      (∀ q, q ≠ p → ((prepare p buffer n b).foldl step s).pc q = s.pc q) ∧
      ∀ a, a ≠ n → a ≠ b → head'.store.live a = head.store.live a := by
  have hcount : min buffer.length (USER_LIMITS - head.total) ≤ USER_LIMITS := by omega
  have henter := enter_eq h hp hbuffer hroom
  have hentered := step_enter (p := p) h buffer
  rw [henter] at hentered
  have halloc := alloc_eq hentered.state (move_pc_self _ _ _ _) hcount hn hb hbn
  obtain ⟨head', hallocated⟩ := step_alloc (p := p) hentered ⟨some n, some b⟩
  rw [halloc] at hallocated
  obtain rfl := Option.some.inj hallocated.state
  obtain ⟨bytes, hcopy, -, -⟩ := copy_eq hallocated (move_pc_self _ _ _ _) .success
  obtain ⟨head', hcopied⟩ := step_copy (p := p) hallocated .success
  rw [hcopy] at hcopied
  obtain rfl := Option.some.inj hcopied.state
  rw [prepare, List.foldl_cons, henter, List.foldl_cons, halloc, List.foldl_cons, hcopy,
    List.foldl_nil]
  refine ⟨_, hcopied, rfl, ?_, fun q hq => ?_, fun a han hab => ?_⟩
  · rw [move_pc_self]
    exact if_neg (not_not.mpr (Nat.zero_min _))
  · rw [move_pc_of_ne _ hq, move_pc_of_ne _ hq, move_pc_of_ne _ hq]
  · exact (Store.allocate_live_of_ne hab).trans (Store.allocate_live_of_ne han)

/-- As many bytes as the limit is. -/
def whole : List Byte := List.replicate USER_LIMITS 0

/-- Two processes take the whole limit each, and then both append. -/
def twoWriters (a b c d : Addr) : List (Act Bool) :=
  prepare false whole a b ++ prepare true whole c d ++ [.append false, .append true]

theorem run_twoWriters (a b c d : Addr) :
    (machine Bool ⟨id, id⟩ id fun _ => []).run (twoWriters a b c d) =
      step (step ((prepare true whole c d).foldl step ((prepare false whole a b).foldl step
        (machine Bool ⟨id, id⟩ id fun _ => []).init)) (.append false)) (.append true) := by
  have hstep : (machine Bool ⟨id, id⟩ id fun _ => []).step = step := rfl
  rw [Machine.run, Machine.runFrom, hstep, twoWriters, List.foldl_append, List.foldl_append,
    List.foldl_cons, List.foldl_cons, List.foldl_nil]

/-- Both processes find `total` at zero, and together they make it twice the limit. -/
theorem concurrent_quota_exceeded :
    ¬ ∀ past, past <+: twoWriters ⟨0, by decide⟩ ⟨1, by decide⟩ ⟨2, by decide⟩ ⟨3, by decide⟩ →
      Safe ((machine Bool ⟨id, id⟩ id fun _ => []).run past) := by
  intro h
  have hlen : whole.length = USER_LIMITS := List.length_replicate
  have hwhole : whole ≠ [] := by
    apply List.ne_nil_of_length_pos
    rw [hlen]
    decide
  have hstart := init_inv Bool ⟨id, id⟩ id fun _ => []
  obtain ⟨head, hfirst, htotal, hp, hother, hlive⟩ :=
    prepare_copied (p := false) (n := ⟨0, by decide⟩) (b := ⟨1, by decide⟩) hstart rfl hwhole
      (by decide) rfl rfl (by decide)
  have hzero : head.total = 0 := htotal
  have hfree (a : Addr) (hn : a ≠ ⟨0, by decide⟩) (hb : a ≠ ⟨1, by decide⟩) :
      head.store.live a = false := (hlive a hn hb).trans rfl
  obtain ⟨head', hsecond, htotal', hq, hother', -⟩ :=
    prepare_copied (p := true) (n := ⟨2, by decide⟩) (b := ⟨3, by decide⟩) hfirst
      (hother true (by decide)) hwhole (by rw [hzero]; decide)
      (hfree _ (by decide) (by decide)) (hfree _ (by decide) (by decide)) (by decide)
  have hp' := (hother' false (by decide)).trans hp
  rw [hlen, hzero] at hq
  rw [hlen] at hp'
  have hzero' : head'.total = 0 := htotal'.trans hzero
  obtain ⟨happend, happended⟩ := append_eq hsecond hp'
  have hroom : head'.total + min USER_LIMITS (USER_LIMITS - 0) ≤ USER_LIMITS := by omega
  have hthird := step_append hsecond hp' hroom
  have hq' := hq
  rw [← move_pc_of_ne _ (show true ≠ false by decide), ← happend] at hq'
  refine step_harm (a := .append true) ?_ hthird ?_
  · intro hc
    have hover := hc _ _ _ _ hthird.state hq'
    have hpos : 0 < USER_LIMITS := by decide
    rw [happended] at hover
    omega
  · have hlast := h _ List.prefix_rfl
    rw [run_twoWriters] at hlast
    exact hlast

end Runs

end KernelDrivers.Procfs.Concurrent
