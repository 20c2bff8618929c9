import KernelDrivers.Framework.Machine
import KernelDrivers.Procfs.Store

namespace KernelDrivers.Procfs.Proc

open Framework Kernel

/-- What a write is called with, what its allocations would return, and what becomes of its
copy. The buffer and one byte more have a size. -/
structure Write where
  buffer : List Byte
  fits : buffer.length < SIZE_MAX
  choices : Choices
  fate : CopyFate

/-- What a write does: its return value, the memory it leaves, and what it has stored. -/
structure Outcome where
  ret : Int
  store : Store
  stored : List (List Byte)

def INT_MAX : Nat := 2147483647

/-- A size returned as an `int`. -/
def toInt (count : Nat) : Int :=
  if count ≤ INT_MAX then count else (count : Int) - (SIZE_MAX + 1 : Nat)

/-- `demo_write`. There is no outcome when memory is used that is not allocated. -/
def demoWrite (s : Store) (w : Write) : Option Outcome :=
  let count := w.buffer.length
  match s.newNode (sizeAdd count 1) w.choices with
  | (s, none) => some ⟨-enomem, s, []⟩
  | (s, some item) =>
    (s.copyFromUser (s.kbuf item) w.buffer w.fate).bind fun copied =>
      if copied.2 ≠ 0 then
        some ⟨-enomem, (copied.1.kfree (copied.1.kbuf item)).kfree item, []⟩
      else (copied.1.publish item count).map fun s => ⟨toInt count, s, [w.buffer]⟩

/-- Reading `pos->list.next`. -/
def readNext (s : Store) (pos : Ptr) : Option Ptr :=
  if s.mapped pos then some (s.links.next pos) else none

/-- `kfree(pos->kbuf); kfree(pos)`. -/
def freeItem (s : Store) : Ptr → Option Store
  | .head => none
  | .node pos => if s.live pos then some ((s.kfree (s.kbuf pos)).kfree pos) else none

/-- `demo_exit`. There is no outcome when a node is read that is not allocated. -/
def demoExit (s : Store) : Option Store :=
  let pos := s.links.next .head
  (readNext s pos).bind fun n =>
    Links.forEachSafe readNext .head freeItem (SIZE_MAX + 1) pos n s

/-- The memory of the driver, none once something has gone wrong, and what the writes so far
have stored. -/
structure Session where
  store : Option Store
  accepted : List (List Byte)

def Session.step (s : Session) (w : Write) : Session :=
  match s.store.bind fun store => demoWrite store w with
  | none => { s with store := none }
  | some o => ⟨some o.store, s.accepted ++ o.stored⟩

/-- Writes one after another, from `demo_init` on. -/
def writes (links : Links Ptr) (kbuf : Addr → Addr) (data : Addr → List Byte) :
    Machine Session Write where
  init := ⟨some (.init links kbuf data), []⟩
  step := Session.step

/-- The list holds the items, and what is allocated is their memory. -/
structure Exact (s : Store) (items : List Item) : Prop where
  holds : s.Holds items
  ledger : s.ledger.Holds (s.blocks items)
  stray : s.ledger.stray = []

variable {s : Store} {items : List Item}

theorem Exact.of_same (h : Exact s items) {s' : Store} (hs : Store.Same s s') : Exact s' items := by
  have hblocks := Store.blocks_congr (h.holds.kbuf_eq fun _ ha => hs.agree ha)
  constructor
  · exact hs.holds h.holds
  · intro a
    have hlive : s'.ledger.held a = s.ledger.held a := hs.live a
    rw [hblocks, hlive]
    exact h.ledger a
  · rw [hs.stray, h.stray]

theorem ledger_withNode (h : Exact s items) {n b : Addr} (hn : s.live n = false)
    (hb : s.live b = false) (size : Nat) :
    (s.withNode n b size).ledger.Holds
      ((s.withNode n b size).blocks items ++ [(s.withNode n b size).kbuf n, n]) := by
  rw [Store.withNode_blocks h.holds hn hb, Store.withNode_kbuf_self]
  apply ((h.ledger.acquire n).acquire b).congr
  intro a
  simp only [List.mem_append, List.mem_cons, List.not_mem_nil, or_false, or_assoc]
  tauto

/-- A write stores the user's bytes. -/
def Write.Stores (w : Write) (s : Store) : Prop :=
  s.Allocates w.choices ∧ w.fate.residue w.buffer.length = 0

/-- The two ways a write ends: it fails and leaves all as it was, or it appends the user's
bytes. -/
theorem demoWrite_ends (h : Exact s items) (w : Write) :
    (¬ w.Stores s ∧ ∃ s', demoWrite s w = some ⟨-enomem, s', []⟩ ∧ Store.Same s s') ∨
    (w.Stores s ∧ ∃ n s', demoWrite s w = some ⟨toInt w.buffer.length, s', [w.buffer]⟩ ∧
      Exact s' (items ++ [⟨n, w.buffer⟩])) := by
  have hadd : sizeAdd w.buffer.length 1 = w.buffer.length + 1 := sizeAdd_of_lt w.fits
  unfold demoWrite
  simp only [hadd]
  rcases s.newNode_cases (w.buffer.length + 1) w.choices with
    ⟨hfail, s', hnew, hsame⟩ | ⟨halloc, n, b, hn, hb, hbn, hnew⟩
  · simp only [hnew]
    exact Or.inl ⟨fun hstores => hfail hstores.1, s', rfl, hsame⟩
  simp only [hnew]
  have hloose := Store.withNode_loose h.holds hn hb hbn w.buffer.length
  obtain ⟨bytes, hcopy, hsize, hfilled⟩ := Store.copyFromUser_loose hloose w.fate
  rw [hcopy, Option.bind_some]
  by_cases hres : w.fate.residue w.buffer.length = 0
  · obtain ⟨last, rfl⟩ := hfilled hres
    have hholds := hloose.holds_write (Store.withNode_holds h.holds hn hb _) (w.buffer ++ [last])
    obtain ⟨hpublish, hlonger⟩ :=
      Store.publish_loose hholds (hloose.write hsize) (Store.write_data_self _ _ _)
    refine Or.inr ⟨⟨halloc, hres⟩, n, _, by rw [if_neg (not_not.mpr hres), hpublish]; rfl, hlonger,
      ?_, h.stray⟩
    rw [Store.blocks_concat]
    exact ledger_withNode h hn hb (w.buffer.length + 1)
  · exact Or.inl ⟨fun hstores => hres hstores.2, _, if_pos hres,
      Store.same_unwind hn hb hbn (w.buffer.length + 1) bytes⟩

/-- What `demo_exit` has done when these items are left of the list. -/
structure Freeing (s₀ s : Store) (items left : List Item) : Prop where
  links : s.links = s₀.links
  kbuf : s.kbuf = s₀.kbuf
  suffix : left <:+ items
  ledger : s.ledger.Holds (s₀.blocks left)
  stray : s.ledger.stray = []
  released : s.ledger.released ++ s₀.blocks left = s₀.ledger.released ++ s₀.blocks items

namespace Freeing

variable {s₀ : Store} {left : List Item}

/-- The links of the head and of the items left are still there to be read. -/
theorem readNext_eq (hs : Freeing s₀ s items left) {p : Ptr}
    (hp : p ∈ Ptr.head :: left.map fun i : Item => Ptr.node i.node) :
    readNext s p = some (s₀.links.next p) := by
  have hmapped : s.mapped p = true := by
    rcases List.mem_cons.mp hp with rfl | hmem
    · rfl
    · obtain ⟨i, hi, rfl⟩ := List.mem_map.mp hmem
      exact (hs.ledger i.node).mpr (s₀.node_mem_blocks hi)
  rw [readNext, if_pos hmapped, hs.links]

/-- Freeing the first item left. -/
theorem freeItem {i : Item} (hs : Freeing s₀ s items (i :: left)) (h : s₀.Holds items) :
    ∃ s', freeItem s (.node i.node) = some s' ∧ Freeing s₀ s' items left := by
  have hblocks : s₀.blocks (i :: left) = [s₀.kbuf i.node, i.node] ++ s₀.blocks left := rfl
  have hlive : s.live i.node = true := by
    apply (hs.ledger i.node).mpr
    exact s₀.node_mem_blocks List.mem_cons_self
  refine ⟨(s.kfree (s.kbuf i.node)).kfree i.node, if_pos hlive, ?_⟩
  have hapart : (s₀.blocks (i :: left)).Nodup := by
    obtain ⟨freed, hfreed⟩ := hs.suffix
    have hall := h.apart
    rw [← hfreed, Store.blocks, List.flatMap_append] at hall
    exact (List.nodup_append.mp hall).2.1
  rw [hblocks] at hapart
  obtain ⟨hpair, -, hdisjoint⟩ := List.nodup_append.mp hapart
  have hledger : s.ledger.Holds (s₀.blocks left ++ [s₀.kbuf i.node, i.node]) := by
    apply hs.ledger.congr
    intro a
    rw [hblocks, List.mem_append, List.mem_append, or_comm]
  obtain ⟨hholds, hstray, hreleased⟩ := hledger.releaseAll hpair
    fun r hr hmem => hdisjoint r hr r hmem rfl
  rw [← hs.kbuf] at hholds hstray hreleased
  constructor
  · exact hs.links
  · exact hs.kbuf
  · exact (List.suffix_cons i left).trans hs.suffix
  · exact hholds
  · exact hstray.trans hs.stray
  · rw [← hs.released, hblocks, ← hs.kbuf, ← List.append_assoc, ← hreleased]
    rfl

end Freeing

/-- The memory of the driver is that of its list, and the list is what the writes have
stored. -/
def Session.Sound (s : Session) (store : Store) (items : List Item) : Prop :=
  s.store = some store ∧ Exact store items ∧ items.map Item.text = s.accepted

/-- What a write does to the list: it appends the user's bytes, or nothing. -/
theorem step_cases {s : Session} {store : Store} {items : List Item}
    (h : s.Sound store items) (w : Write) :
    (¬ w.Stores store ∧ ∃ store', (s.step w).Sound store' items ∧
      (s.step w).accepted = s.accepted) ∨
    (w.Stores store ∧ ∃ store' n, (s.step w).Sound store' (items ++ [⟨n, w.buffer⟩]) ∧
      (s.step w).accepted = s.accepted ++ [w.buffer]) := by
  obtain ⟨hstore, hexact, htexts⟩ := h
  unfold Session.step
  rw [hstore, Option.bind_some]
  rcases demoWrite_ends hexact w with
    ⟨hw, store', hwrite, hsame⟩ | ⟨hw, n, store', hwrite, hexact'⟩
  · rw [hwrite]
    have hkept := List.append_nil s.accepted
    exact Or.inl ⟨hw, store', ⟨rfl, hexact.of_same hsame, htexts.trans hkept.symm⟩, hkept⟩
  · rw [hwrite]
    exact Or.inr ⟨hw, store', n, ⟨rfl, hexact', by simpa using htexts⟩, rfl⟩

theorem init_sound (links : Links Ptr) (kbuf : Addr → Addr) (data : Addr → List Byte) :
    (writes links kbuf data).init.Sound (.init links kbuf data) [] :=
  ⟨rfl, ⟨Store.init_holds links kbuf data, Ledger.holds_empty, rfl⟩, rfl⟩

theorem step_sound {s : Session} (h : ∃ store items, s.Sound store items) (w : Write) :
    ∃ store items, (s.step w).Sound store items := by
  obtain ⟨store, items, hsound⟩ := h
  rcases step_cases hsound w with ⟨-, store', hsound', -⟩ | ⟨-, store', n, hsound', -⟩
  · exact ⟨store', _, hsound'⟩
  · exact ⟨store', _, hsound'⟩

theorem run_sound (links : Links Ptr) (kbuf : Addr → Addr) (data : Addr → List Byte)
    (history : List Write) :
    ∃ store items, ((writes links kbuf data).run history).Sound store items :=
  (writes links kbuf data).run_invariant (I := fun s => ∃ store items, s.Sound store items)
    ⟨_, _, init_sound links kbuf data⟩ (fun _ w h => step_sound h w) history

section Lifetime

end Lifetime

end KernelDrivers.Procfs.Proc
