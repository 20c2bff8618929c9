import Mathlib.Data.Fintype.Card
import KernelDrivers.Framework.CircularList
import KernelDrivers.Framework.ResourceLedger
import KernelDrivers.Kernel.Basic

namespace KernelDrivers.Procfs

open Framework Kernel

/-- What `kzalloc` can return other than `NULL`. -/
abbrev Addr := Fin SIZE_MAX

/-- A pointer to a `struct list_head`: that of the driver, or that of the node at an address. -/
inductive Ptr where
  | head
  | node (n : Addr)
  deriving DecidableEq

/-- The list of a driver and its memory: the links, the field `kbuf` of the node at an
address, the bytes of the buffer at an address, and which blocks are allocated. Memory that is
not allocated keeps what was last written there. -/
structure Store where
  links : Links Ptr
  kbuf : Addr → Addr
  data : Addr → List Byte
  ledger : Ledger Addr

/-- What the two `kzalloc` calls of a write would return. -/
structure Choices where
  node : Option Addr
  kbuf : Option Addr

namespace Store

def live (s : Store) (a : Addr) : Bool := s.ledger.held a

/-- Whether there is a `struct list_head` at a pointer. -/
def mapped (s : Store) : Ptr → Bool
  | .head => true
  | .node n => s.live n

/-- `kzalloc` fails or returns memory that is not in use. -/
def kzalloc (s : Store) (choice : Option Addr) : Option Addr :=
  choice.filter fun a => !s.live a

def allocate (s : Store) (a : Addr) : Store := { s with ledger := s.ledger.acquire a }

def kfree (s : Store) (a : Addr) : Store := { s with ledger := s.ledger.release a }

/-- `node->kbuf` points to a buffer of `size` zero bytes. -/
def setKbuf (s : Store) (n b : Addr) (size : Nat) : Store :=
  { s with
    kbuf := Function.update s.kbuf n b
    data := Function.update s.data b (List.replicate size 0) }

/-- The two `kzalloc` calls of a write; the node is freed when there is no memory for its
buffer. -/
def newNode (s : Store) (size : Nat) (choices : Choices) : Store × Option Addr :=
  match s.kzalloc choices.node with
  | none => (s, none)
  | some n =>
    let s := s.allocate n
    match s.kzalloc choices.kbuf with
    | none => (s.kfree n, none)
    | some b => ((s.allocate b).setKbuf n b size, some n)

def write (s : Store) (b : Addr) (bytes : List Byte) : Store :=
  { s with data := Function.update s.data b bytes }

/-- `copy_from_user` of `bs` to a buffer, and what it returns. There is no outcome when the
buffer is not allocated or ends too early. -/
def copyFromUser (s : Store) (b : Addr) (bs : List Byte) (fate : CopyFate) :
    Option (Store × Nat) :=
  if s.live b ∧ bs.length ≤ (s.data b).length then
    some (s.write b (fate.landed bs ++ (s.data b).drop bs.length), fate.residue bs.length)
  else none

/-- `kbuf[i] = '\0'`. -/
def terminate (s : Store) (b : Addr) (i : Nat) : Option Store :=
  if s.live b ∧ i < (s.data b).length then some (s.write b ((s.data b).set i 0)) else none

def link (s : Store) (n : Addr) : Store :=
  { s with links := s.links.listAddTail (.node n) .head }

/-- `list_add_tail(&node->list, &head)`. -/
def listAddTail (s : Store) (n : Addr) : Option Store :=
  if s.live n ∧ s.mapped (s.links.prev .head) then some (s.link n) else none

/-- `node->kbuf[count] = '\0'; list_add_tail(&node->list, &head)`. -/
def publish (s : Store) (n : Addr) (count : Nat) : Option Store :=
  (s.terminate (s.kbuf n) count).bind fun s => s.listAddTail n

end Store

/-- A node of the list, and the bytes that are in its buffer before the last one. -/
structure Item where
  node : Addr
  text : List Byte

namespace Store

/-- The memory of the items: a buffer and a node for each. -/
def blocks (s : Store) (items : List Item) : List Addr :=
  items.flatMap fun i => [s.kbuf i.node, i.node]

/-- The memory of some nodes: a buffer and a node for each. -/
def nodeBlocks (s : Store) (nodes : List Addr) : List Addr :=
  nodes.flatMap fun n => [s.kbuf n, n]

/-- The size of the buffer of an item. -/
def size (s : Store) (i : Item) : Nat := (s.data (s.kbuf i.node)).length

/-- What the buffers of the items are made for, each without its last byte. -/
def stored (s : Store) : List Item → Nat
  | [] => 0
  | i :: items => s.size i - 1 + s.stored items

/-- A circular list of these nodes; they and their buffers are allocated, and apart. -/
structure Listed (s : Store) (nodes : List Addr) : Prop where
  ring : s.links.IsRing .head (nodes.map .node)
  live : ∀ a ∈ s.nodeBlocks nodes, s.live a = true
  apart : (s.nodeBlocks nodes).Nodup

/-- The list is made of these items, all their memory is allocated and apart, and every buffer
holds its text and a NUL. -/
structure Holds (s : Store) (items : List Item) : Prop where
  ring : s.links.IsRing .head (items.map fun i => .node i.node)
  live : ∀ a ∈ s.blocks items, s.live a = true
  apart : (s.blocks items).Nodup
  text : ∀ i ∈ items, s.data (s.kbuf i.node) = i.text ++ [0]

/-- A node outside the list, with a buffer for `count` bytes and a NUL. -/
structure Loose (s : Store) (items : List Item) (n : Addr) (count : Nat) : Prop where
  node : s.live n = true
  kbuf : s.live (s.kbuf n) = true
  apart : (s.blocks items ++ [s.kbuf n, n]).Nodup
  size : (s.data (s.kbuf n)).length = count + 1

/-- Two memories agree about what is at an address. -/
structure Agree (s s' : Store) (a : Addr) : Prop where
  kbuf : s'.kbuf a = s.kbuf a
  data : s'.data a = s.data a
  live : s'.live a = s.live a

/-- Nothing differs but the record of the releases and what is in memory not allocated. -/
structure Same (s s' : Store) : Prop where
  links : s'.links = s.links
  live : ∀ a, s'.live a = s.live a
  kept : ∀ a, s.live a = true → s'.kbuf a = s.kbuf a ∧ s'.data a = s.data a
  stray : s'.ledger.stray = s.ledger.stray

theorem Same.refl (s : Store) : Same s s := ⟨rfl, fun _ => rfl, fun _ _ => ⟨rfl, rfl⟩, rfl⟩

/-- Both allocations of a write succeed. -/
def Allocates (s : Store) (choices : Choices) : Prop :=
  ∃ n b, s.kzalloc choices.node = some n ∧ (s.allocate n).kzalloc choices.kbuf = some b

/-- An empty list, in a memory with any links and bytes of which nothing is allocated. -/
def init (links : Links Ptr) (kbuf : Addr → Addr) (data : Addr → List Byte) : Store :=
  ⟨links.initListHead .head, kbuf, data, .empty⟩

theorem init_holds (links : Links Ptr) (kbuf : Addr → Addr) (data : Addr → List Byte) :
    (init links kbuf data).Holds [] where
  ring := Links.isRing_initListHead links .head
  live := fun _ h => absurd h List.not_mem_nil
  apart := List.nodup_nil
  text := fun _ h => absurd h List.not_mem_nil

variable {s s' : Store} {items : List Item} {n : Addr}

theorem node_mem_blocks (s : Store) {i : Item} (hi : i ∈ items) : i.node ∈ s.blocks items :=
  List.mem_flatMap.mpr ⟨i, hi, by simp⟩

theorem kbuf_mem_blocks (s : Store) {i : Item} (hi : i ∈ items) :
    s.kbuf i.node ∈ s.blocks items :=
  List.mem_flatMap.mpr ⟨i, hi, by simp⟩

theorem blocks_concat (s : Store) (items : List Item) (i : Item) :
    s.blocks (items ++ [i]) = s.blocks items ++ [s.kbuf i.node, i.node] := by
  simp [blocks]

theorem blocks_eq_nodeBlocks (s : Store) (items : List Item) :
    s.blocks items = s.nodeBlocks (items.map Item.node) := by
  rw [blocks, nodeBlocks, List.flatMap_map]

section Listed

variable {nodes : List Addr}

theorem nodeBlocks_append (s : Store) (nodes more : List Addr) :
    s.nodeBlocks (nodes ++ more) = s.nodeBlocks nodes ++ s.nodeBlocks more := List.flatMap_append

theorem mem_nodeBlocks (s : Store) {n : Addr} (hn : n ∈ nodes) : n ∈ s.nodeBlocks nodes :=
  List.mem_flatMap.mpr ⟨n, hn, by simp⟩

/-- There are fewer nodes than addresses. -/
theorem Listed.length_le (h : s.Listed nodes) : nodes.length ≤ SIZE_MAX := by
  have hcard := h.ring.nodup_of_map.length_le_card
  rwa [Fintype.card_fin] at hcard

end Listed

theorem Same.agree (h : Same s s') {a : Addr} (ha : s.live a = true) : Agree s s' a := by
  obtain ⟨hkbuf, hdata⟩ := h.kept a ha
  exact ⟨hkbuf, hdata, h.live a⟩

theorem Agree.link {a : Addr} (h : Agree s s' a) (n : Addr) : Agree s (s'.link n) a :=
  ⟨h.kbuf, h.data, h.live⟩

theorem blocks_congr (h : ∀ i ∈ items, s'.kbuf i.node = s.kbuf i.node) :
    s'.blocks items = s.blocks items := by
  unfold blocks
  apply List.flatMap_congr
  intro i hi
  rw [h i hi]

namespace Holds

theorem not_mem (h : s.Holds items) {a : Addr} (ha : s.live a = false) :
    a ∉ s.blocks items := by
  intro hmem
  exact absurd ((h.live a hmem).symm.trans ha) (by decide)

/-- The buffers of the items are where they were when all memory in use is as it was. -/
theorem kbuf_eq (h : s.Holds items) (hagree : ∀ a, s.live a = true → Agree s s' a) :
    ∀ i ∈ items, s'.kbuf i.node = s.kbuf i.node := by
  intro i hi
  exact (hagree i.node (h.live _ (s.node_mem_blocks hi))).kbuf

theorem listed (h : s.Holds items) : s.Listed (items.map Item.node) where
  ring := by
    rw [List.map_map]
    exact h.ring
  live := by
    rw [← blocks_eq_nodeBlocks]
    exact h.live
  apart := by
    rw [← blocks_eq_nodeBlocks]
    exact h.apart

theorem length_le (h : s.Holds items) : items.length ≤ SIZE_MAX := by
  have hlen := h.listed.length_le
  rwa [List.length_map] at hlen

/-- A loop over the list ends in as many steps. -/
theorem nodes_length_lt (h : s.Holds items) :
    (items.map fun i => Ptr.node i.node).length < SIZE_MAX + 1 := by
  rw [List.length_map]
  exact Nat.lt_succ_of_le h.length_le

theorem size (h : s.Holds items) {i : Item} (hi : i ∈ items) : s.size i = i.text.length + 1 := by
  rw [Store.size, h.text i hi, List.length_append]
  rfl

theorem stored_eq (h : s.Holds items) {part : List Item} (hpart : part ⊆ items) :
    s.stored part = (part.map Item.text).flatten.length := by
  induction part with
  | nil => rfl
  | cons i part ih =>
    obtain ⟨hi, hrest⟩ := List.cons_subset.mp hpart
    rw [Store.stored, h.size hi, ih hrest, List.map_cons, List.flatten_cons, List.length_append,
      Nat.add_sub_cancel]

/-- The places on the ring are there. -/
theorem mapped (h : s.Holds items) {p : Ptr}
    (hp : p ∈ .head :: items.map fun i => .node i.node) : s.mapped p = true := by
  rcases List.mem_cons.mp hp with rfl | hmem
  · rfl
  · obtain ⟨i, hi, rfl⟩ := List.mem_map.mp hmem
    exact h.live i.node (s.node_mem_blocks hi)

/-- A memory that agrees about the blocks of the list holds the same list. -/
theorem congr (h : s.Holds items) (hlinks : s'.links = s.links)
    (hagree : ∀ a ∈ s.blocks items, Agree s s' a) : s'.Holds items := by
  have hblocks : s'.blocks items = s.blocks items :=
    blocks_congr fun i hi => (hagree _ (s.node_mem_blocks hi)).kbuf
  constructor
  · rw [hlinks]
    exact h.ring
  · intro a ha
    rw [hblocks] at ha
    exact (hagree a ha).live.trans (h.live a ha)
  · rw [hblocks]
    exact h.apart
  · intro i hi
    rw [(hagree _ (s.node_mem_blocks hi)).kbuf, (hagree _ (s.kbuf_mem_blocks hi)).data]
    exact h.text i hi

end Holds

theorem Same.holds (hs : Same s s') (h : s.Holds items) : s'.Holds items :=
  h.congr hs.links fun a ha => hs.agree (h.live a ha)

theorem Loose.congr {count : Nat} (h : s.Loose items n count)
    (hlist : ∀ i ∈ items, s'.kbuf i.node = s.kbuf i.node) (hnode : Agree s s' n)
    (hkbuf : Agree s s' (s.kbuf n)) : s'.Loose items n count := by
  constructor
  · rw [hnode.live, h.node]
  · rw [hnode.kbuf, hkbuf.live, h.kbuf]
  · rw [hnode.kbuf, blocks_congr hlist]
    exact h.apart
  · rw [hnode.kbuf, hkbuf.data, h.size]

theorem kzalloc_free {choice : Option Addr} {a : Addr} (h : s.kzalloc choice = some a) :
    s.live a = false := by
  simpa using (Option.filter_eq_some_iff.mp h).2

@[simp] theorem allocate_live_self (s : Store) (a : Addr) : (s.allocate a).live a = true := by
  simp [live, allocate, Ledger.acquire]

theorem allocate_live_of_ne {a b : Addr} (h : a ≠ b) : (s.allocate b).live a = s.live a := by
  simp [live, allocate, Ledger.acquire, h]

theorem kfree_live_of_ne {a b : Addr} (h : a ≠ b) : (s.kfree b).live a = s.live a := by
  simp [live, kfree, Ledger.release, h]

@[simp] theorem setKbuf_kbuf_self (s : Store) (n b : Addr) (size : Nat) :
    (s.setKbuf n b size).kbuf n = b := by simp [setKbuf]

@[simp] theorem setKbuf_data_self (s : Store) (n b : Addr) (size : Nat) :
    (s.setKbuf n b size).data b = List.replicate size 0 := by simp [setKbuf]

/-- The memory with a new node and its buffer. -/
def withNode (s : Store) (n b : Addr) (size : Nat) : Store :=
  ((s.allocate n).allocate b).setKbuf n b size

@[simp] theorem withNode_kbuf_self (s : Store) (n b : Addr) (size : Nat) :
    (s.withNode n b size).kbuf n = b := setKbuf_kbuf_self _ n b size

@[simp] theorem write_data_self (s : Store) (b : Addr) (bytes : List Byte) :
    (s.write b bytes).data b = bytes := by simp [write]

theorem write_data_of_ne {a b : Addr} (h : a ≠ b) (bytes : List Byte) :
    (s.write b bytes).data a = s.data a := by simp [write, h]

theorem ne_of_live {a b : Addr} (ha : s.live a = true) (hb : s.live b = false) : a ≠ b := by
  intro heq
  rw [heq] at ha
  exact absurd (ha.symm.trans hb) (by decide)

/-- A new node and its buffer take nothing that is in use. -/
theorem withNode_agree {b : Addr} (hn : s.live n = false) (hb : s.live b = false) (size : Nat)
    {a : Addr} (ha : s.live a = true) : Agree s (s.withNode n b size) a := by
  have han := ne_of_live ha hn
  have hab := ne_of_live ha hb
  constructor
  · exact Function.update_of_ne han b s.kbuf
  · exact Function.update_of_ne hab _ s.data
  · exact (allocate_live_of_ne hab).trans (allocate_live_of_ne han)

theorem withNode_holds (h : s.Holds items) {b : Addr} (hn : s.live n = false)
    (hb : s.live b = false) (size : Nat) : (s.withNode n b size).Holds items :=
  h.congr rfl fun a ha => withNode_agree hn hb size (h.live a ha)

theorem withNode_blocks (h : s.Holds items) {b : Addr} (hn : s.live n = false)
    (hb : s.live b = false) (size : Nat) : (s.withNode n b size).blocks items = s.blocks items :=
  blocks_congr (h.kbuf_eq fun _ ha => withNode_agree hn hb size ha)

theorem withNode_loose (h : s.Holds items) {b : Addr} (hn : s.live n = false)
    (hb : s.live b = false) (hbn : b ≠ n) (count : Nat) :
    (s.withNode n b (count + 1)).Loose items n count := by
  have hpointer := s.withNode_kbuf_self n b (count + 1)
  constructor
  · exact (allocate_live_of_ne hbn.symm).trans (s.allocate_live_self n)
  · rw [hpointer]
    exact (s.allocate n).allocate_live_self b
  · rw [hpointer, withNode_blocks h hn hb]
    apply List.nodup_append.mpr
    refine ⟨h.apart, by simpa using hbn, ?_⟩
    intro a ha c hc heq
    subst heq
    rcases List.mem_cons.mp hc with rfl | hc
    · exact h.not_mem hb ha
    · rw [List.mem_singleton.mp hc] at ha
      exact h.not_mem hn ha
  · rw [hpointer, withNode, setKbuf_data_self, List.length_replicate]

theorem newNode_fresh {b : Addr} (hn : s.live n = false) (hb : s.live b = false) (hbn : b ≠ n)
    (size : Nat) : s.newNode size ⟨some n, some b⟩ = (s.withNode n b size, some n) := by
  have hnode : s.kzalloc (some n) = some n := by simp [kzalloc, hn]
  have hkbuf : (s.allocate n).kzalloc (some b) = some b := by
    simp [kzalloc, allocate_live_of_ne hbn, hb]
  simp only [newNode, hnode, hkbuf]
  rfl

/-- An allocation that is undone leaves all as it was. -/
theorem same_kfree_allocate (hn : s.live n = false) : Same s ((s.allocate n).kfree n) := by
  refine ⟨rfl, fun a => ?_, fun _ _ => ⟨rfl, rfl⟩, ?_⟩
  · by_cases ha : a = n
    · subst ha
      simpa [live, kfree, allocate, Ledger.release, Ledger.acquire] using hn.symm
    · exact (kfree_live_of_ne ha).trans (allocate_live_of_ne ha)
  · simp [kfree, allocate, Ledger.release, Ledger.acquire]

/-- A new node and its buffer that are given back leave all as it was, whatever has been
written to the buffer. -/
theorem same_unwind {b : Addr} (hn : s.live n = false) (hb : s.live b = false) (hbn : b ≠ n)
    (size : Nat) (bytes : List Byte) :
    let s' := s.withNode n b size
    Same s (((s'.write (s'.kbuf n) bytes).kfree (s'.kbuf n)).kfree n) := by
  simp only [withNode_kbuf_self]
  refine ⟨rfl, fun a => ?_, fun a ha => ?_, ?_⟩
  · by_cases han : a = n
    · subst han
      simpa [live, kfree, Ledger.release] using hn.symm
    · rw [kfree_live_of_ne han]
      by_cases hab : a = b
      · subst hab
        simpa [live, kfree, Ledger.release] using hb.symm
      · rw [kfree_live_of_ne hab]
        exact (allocate_live_of_ne hab).trans (allocate_live_of_ne han)
  · have hagree := withNode_agree hn hb size ha
    exact ⟨hagree.kbuf, (write_data_of_ne (ne_of_live ha hb) bytes).trans hagree.data⟩
  · simp [kfree, write, withNode, setKbuf, allocate, Ledger.release, Ledger.acquire, hbn.symm]

/-- The allocations of a write leave all as it was, or they make a new node. -/
theorem newNode_cases (s : Store) (size : Nat) (choices : Choices) :
    (¬ s.Allocates choices ∧ ∃ s', s.newNode size choices = (s', none) ∧ Same s s') ∨
    (s.Allocates choices ∧ ∃ n b, s.live n = false ∧ s.live b = false ∧ b ≠ n ∧
      s.newNode size choices = (s.withNode n b size, some n)) := by
  unfold newNode Allocates
  cases hnode : s.kzalloc choices.node with
  | none => exact Or.inl ⟨nofun, s, rfl, .refl s⟩
  | some n =>
    have hn := kzalloc_free hnode
    cases hkbuf : (s.allocate n).kzalloc choices.kbuf with
    | none =>
      refine Or.inl ⟨?_, _, by simp only [hkbuf], same_kfree_allocate hn⟩
      intro hboth
      obtain ⟨m, b, hm, hb⟩ := hboth
      obtain rfl := Option.some.inj hm
      exact Option.some_ne_none b (hb.symm.trans hkbuf)
    | some b =>
      have hb := kzalloc_free hkbuf
      have hbn := (ne_of_live (s.allocate_live_self n) hb).symm
      have hb' := (allocate_live_of_ne hbn).symm.trans hb
      exact Or.inr ⟨⟨n, b, rfl, hkbuf⟩, n, b, hn, hb', hbn, by simp only [hkbuf]; rfl⟩

/-- No block of the list is a node outside the list or its buffer. -/
theorem Loose.ne {count : Nat} (hn : s.Loose items n count) {a : Addr}
    (ha : a ∈ s.blocks items) : a ≠ s.kbuf n ∧ a ≠ n := by
  obtain ⟨-, -, hdisjoint⟩ := List.nodup_append.mp hn.apart
  exact ⟨hdisjoint a ha (s.kbuf n) (by simp), hdisjoint a ha n (by simp)⟩

/-- Writing the buffer of a node outside the list leaves the list as it is. -/
theorem Loose.holds_write {count : Nat} (hn : s.Loose items n count) (h : s.Holds items)
    (bytes : List Byte) : (s.write (s.kbuf n) bytes).Holds items := by
  refine h.congr rfl fun a ha => ?_
  obtain ⟨hne, -⟩ := hn.ne ha
  exact ⟨rfl, write_data_of_ne hne bytes, rfl⟩

theorem Loose.write {count : Nat} (hn : s.Loose items n count) {bytes : List Byte}
    (hsize : bytes.length = count + 1) : (s.write (s.kbuf n) bytes).Loose items n count where
  node := hn.node
  kbuf := hn.kbuf
  apart := hn.apart
  size := by
    show ((s.write (s.kbuf n) bytes).data (s.kbuf n)).length = count + 1
    rw [write_data_self, hsize]

/-- A copy of all the bytes that the buffer of a node outside the list is for. -/
theorem copyFromUser_loose {bs : List Byte} (hn : s.Loose items n bs.length) (fate : CopyFate) :
    ∃ bytes, s.copyFromUser (s.kbuf n) bs fate =
        some (s.write (s.kbuf n) bytes, fate.residue bs.length) ∧
      bytes.length = bs.length + 1 ∧
      (fate.residue bs.length = 0 → ∃ last, bytes = bs ++ [last]) := by
  have hle : bs.length ≤ (s.data (s.kbuf n)).length := by
    rw [hn.size]
    exact Nat.le_succ _
  have hrest : ((s.data (s.kbuf n)).drop bs.length).length = 1 := by
    rw [List.length_drop, hn.size, Nat.add_sub_cancel_left]
  obtain ⟨last, hlast⟩ := List.length_eq_one_iff.mp hrest
  refine ⟨fate.landed bs ++ [last], ?_, by simp, fun hres => ⟨last, ?_⟩⟩
  · rw [copyFromUser, if_pos ⟨hn.kbuf, hle⟩, hlast]
  · rw [CopyFate.landed_of_residue hres]

theorem Loose.holds_link {bs : List Byte} (hn : s.Loose items n bs.length) (h : s.Holds items)
    (htext : s.data (s.kbuf n) = bs ++ [0]) : (s.link n).Holds (items ++ [⟨n, bs⟩]) := by
  have hnode : n ∉ s.blocks items := fun hmem => (hn.ne hmem).2 rfl
  have hnew : Ptr.node n ∉ Ptr.head :: items.map fun i => .node i.node := by
    intro hmem
    obtain ⟨i, hi, heq⟩ := List.mem_map.mp ((List.mem_cons.mp hmem).resolve_left nofun)
    obtain rfl := Ptr.node.inj heq
    exact hnode (s.node_mem_blocks hi)
  have hblocks : (s.link n).blocks (items ++ [⟨n, bs⟩]) = s.blocks items ++ [s.kbuf n, n] :=
    blocks_concat s items ⟨n, bs⟩
  constructor
  · rw [List.map_append]
    exact h.ring.listAddTail hnew
  · intro a ha
    rw [hblocks] at ha
    rcases List.mem_append.mp ha with ha | ha
    · exact h.live a ha
    · rcases List.mem_cons.mp ha with rfl | ha
      · exact hn.kbuf
      · rw [List.mem_singleton.mp ha]
        exact hn.node
  · rw [hblocks]
    exact hn.apart
  · intro i hi
    rcases List.mem_append.mp hi with hi | hi
    · exact h.text i hi
    · rw [List.mem_singleton.mp hi]
      exact htext

/-- A node outside the list whose buffer is filled joins the list. -/
theorem publish_loose {bs : List Byte} (h : s.Holds items) (hn : s.Loose items n bs.length)
    {last : Byte} (hdata : s.data (s.kbuf n) = bs ++ [last]) :
    s.publish n bs.length = some ((s.write (s.kbuf n) (bs ++ [0])).link n) ∧
      ((s.write (s.kbuf n) (bs ++ [0])).link n).Holds (items ++ [⟨n, bs⟩]) := by
  have hend : (s.data (s.kbuf n)).set bs.length 0 = bs ++ [0] := by
    rw [hdata, List.set_append_right _ _ (Nat.le_refl _), Nat.sub_self]
    rfl
  have hlt : bs.length < (s.data (s.kbuf n)).length := by
    rw [hn.size]
    exact Nat.lt_succ_self _
  have hloose : (s.write (s.kbuf n) (bs ++ [0])).Loose items n bs.length := hn.write (by simp)
  have hholds := hn.holds_write h (bs ++ [0])
  have hprev := hholds.mapped (hholds.ring.prev_mem List.mem_cons_self).1
  refine ⟨?_, hloose.holds_link hholds (s.write_data_self _ _)⟩
  rw [publish, terminate, if_pos ⟨hn.kbuf, hlt⟩, hend]
  exact if_pos ⟨hn.node, hprev⟩

end Store

end KernelDrivers.Procfs
