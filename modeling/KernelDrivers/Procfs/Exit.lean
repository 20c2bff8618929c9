import KernelDrivers.Dlist.Exit
import KernelDrivers.Procfs.Demo

namespace KernelDrivers.Procfs

open Framework Kernel

/-- What `demo_exit` has done so far: the memory it leaves, and the nodes it has come to. -/
structure Exit where
  store : Store
  visited : List Addr

namespace Exit

/-- Reading `pos->list.next`. -/
def readNext (e : Exit) (pos : Ptr) : Option Ptr :=
  if e.store.mapped pos then some (e.store.links.next pos) else none

/-- `kfree(pos->kbuf); kfree(pos)`. There is no outcome when a node is read that is not
allocated. -/
def body (e : Exit) : Ptr → Option Exit
  | .head => none
  | .node pos =>
    if e.store.live pos then
      some ⟨(e.store.kfree (e.store.kbuf pos)).kfree pos, e.visited ++ [pos]⟩
    else none

end Exit

/-- `demo_exit` -/
def demoExit (s : ProcHead) : Option Exit :=
  let e : Exit := ⟨s.store, []⟩
  let pos := s.store.links.next .head
  (e.readNext pos).bind fun n =>
    Links.forEachSafe Exit.readNext .head Exit.body (SIZE_MAX + 1) pos n e

/-- What `demo_exit` has done when these nodes are left of the list: it has released the memory of
the others. -/
structure Leaving (s : Store) (nodes left : List Addr) (e : Exit) : Prop where
  links : e.store.links = s.links
  kbuf : e.store.kbuf = s.kbuf
  visited : e.visited ++ left = nodes
  ledger : e.store.ledger = s.ledger.releaseAll (s.nodeBlocks e.visited)

namespace Leaving

variable {s : Store} {nodes left : List Addr} {e : Exit}

/-- A node that is left has not been freed. -/
theorem live_left (he : Leaving s nodes left e) (h : s.Listed nodes) {n : Addr} (hn : n ∈ left) :
    e.store.live n = true := by
  have hlive := h.live
  have hapart := h.apart
  rw [← he.visited, Store.nodeBlocks_append] at hlive hapart
  have hmem := s.mem_nodeBlocks hn
  rw [Store.live, he.ledger, Ledger.releaseAll_held]
  exact ⟨hlive n (List.mem_append_right _ hmem),
    fun hv => (List.nodup_append.mp hapart).2.2 n hv n hmem rfl⟩

theorem readNext_eq (he : Leaving s nodes left e) (h : s.Listed nodes) {p : Ptr}
    (hp : p ∈ Ptr.head :: left.map Ptr.node) : e.readNext p = some (s.links.next p) := by
  have hmapped : e.store.mapped p = true := by
    rcases List.mem_cons.mp hp with rfl | hmem
    · rfl
    · obtain ⟨n, hn, rfl⟩ := List.mem_map.mp hmem
      exact he.live_left h hn
  rw [Exit.readNext, if_pos hmapped, he.links]

/-- One iteration comes to the first node left and releases its buffer and the node. -/
theorem body_step {n : Addr} (he : Leaving s nodes (n :: left) e) (h : s.Listed nodes) :
    ∃ e', e.body (.node n) = some e' ∧ Leaving s nodes left e' := by
  have hlive := he.live_left h List.mem_cons_self
  refine ⟨⟨(e.store.kfree (e.store.kbuf n)).kfree n, e.visited ++ [n]⟩, if_pos hlive, he.links,
    he.kbuf, ?_, ?_⟩
  · rw [List.append_assoc]
    exact he.visited
  · rw [Store.nodeBlocks_append, Ledger.releaseAll_append, ← he.ledger, he.kbuf]
    rfl

end Leaving

/-- `demo_exit` comes to an end with every node visited in the order of the list, and its memory
released. -/
theorem demoExit_leaves {s : ProcHead} {nodes : List Addr} (h : s.store.Listed nodes) :
    ∃ e, demoExit s = some e ∧ Leaving s.store nodes [] e := by
  have hstart : Leaving s.store nodes nodes ⟨s.store, []⟩ := ⟨rfl, rfl, rfl, rfl⟩
  apply h.ring.forEachSafe (I := Leaving s.store nodes) ?_ ?_ hstart (Nat.lt_succ_of_le h.length_le)
  · intro left e he p hp
    exact he.readNext_eq h hp
  · intro n left e _ he
    exact he.body_step h

/-- After any writes `demo_exit` walks the list that they have stored and releases its memory. -/
theorem demoExit_after_writes (links : Links Ptr) (kbuf : Addr → Addr) (data : Addr → List Byte)
    (history : List Write) :
    let s := (writes links kbuf data).run history
    ∃ head items e, s.head = some head ∧ items.map Item.text = s.accepted ∧
      demoExit head = some e ∧ e.visited = items.map Item.node ∧
      e.store.ledger = head.store.ledger.releaseAll (head.store.blocks items) := by
  intro s
  obtain ⟨head, items, hhead, haccounted, htexts⟩ := run_sound links kbuf data history
  obtain ⟨e, hexit, he⟩ := demoExit_leaves haccounted.holds.listed
  have hvisited : e.visited = items.map Item.node := (List.append_nil _).symm.trans he.visited
  refine ⟨head, items, e, hhead, htexts, hexit, hvisited, ?_⟩
  rw [he.ledger, hvisited, Store.blocks_eq_nodeBlocks]

/-- Both loops come to an end after one iteration for each node, in the order of the list, and free
each node, and each buffer of procfs, once, with nothing read that has been freed. -/
theorem exit_loops_free_once (ρ : Type*) :
    (∀ (s : Dlist.StuHead ρ) (nodes : List Dlist.Addr), s.Listed nodes →
      ∃ e, Dlist.kbufExit s = some e ∧ e.visited = nodes ∧ e.printed = nodes.map s.stu ∧
        e.freed = nodes ∧ e.freed.Nodup ∧
        ∀ n, e.dev.alive n = true ↔ s.alive n = true ∧ n ∉ nodes) ∧
    (∀ (s : ProcHead) (nodes : List Addr), s.store.Listed nodes →
      ∃ e, demoExit s = some e ∧ e.visited = nodes ∧
        e.store.ledger.released = s.store.ledger.released ++ s.store.nodeBlocks nodes ∧
        (s.store.nodeBlocks nodes).Nodup ∧ e.store.ledger.stray = s.store.ledger.stray ∧
        ∀ a, e.store.live a = true ↔ s.store.live a = true ∧ a ∉ s.store.nodeBlocks nodes) := by
  constructor
  · intro s nodes h
    obtain ⟨e, hexit, he⟩ := Dlist.kbufExit_leaves h
    obtain rfl : e.visited = nodes := (List.append_nil _).symm.trans he.visited
    have hnodup : e.freed.Nodup := by
      rw [he.freed]
      exact h.nodup
    exact ⟨e, hexit, rfl, he.printed, he.freed, hnodup, he.alive⟩
  · intro s nodes h
    obtain ⟨e, hexit, he⟩ := demoExit_leaves h
    obtain rfl : e.visited = nodes := (List.append_nil _).symm.trans he.visited
    refine ⟨e, hexit, rfl, ?_, h.apart, ?_, ?_⟩
    · rw [he.ledger, Ledger.releaseAll_released]
    · rw [he.ledger, Ledger.releaseAll_stray h.apart h.live]
    · intro a
      rw [Store.live, he.ledger, Ledger.releaseAll_held]
      rfl

/-- Two nodes in each list; the buffers of procfs are at the next two addresses. -/
theorem exit_loops_free_once_two :
    let a : Addr := ⟨0, by decide⟩
    let b : Addr := ⟨1, by decide⟩
    let c : Addr := ⟨2, by decide⟩
    let d : Addr := ⟨3, by decide⟩
    let stuhead : Dlist.StuHead Nat :=
      ((((Dlist.StuHead.init ⟨id, id⟩ fun n => n.val).allocate a).append a).allocate b).append b
    let empty : Store := .init ⟨id, id⟩ (fun n => if n = a then c else d) fun _ => []
    let prochead : ProcHead :=
      ⟨{ (empty.link a).link b with ledger := Ledger.empty.acquireAll [a, c, b, d] }, 0⟩
    (∃ e, Dlist.kbufExit stuhead = some e ∧ e.printed = [0, 1] ∧ e.freed = [a, b]) ∧
      ∃ e, demoExit prochead = some e ∧ e.visited = [a, b] ∧
        e.store.ledger.released = [c, a, d, b] := by
  intro a b c d stuhead empty prochead
  have hab : b ≠ a := by decide
  have hlisted : stuhead.Listed [a, b] := by
    have hone := ((Dlist.StuHead.init_holds ⟨id, id⟩ fun n => n.val).allocate a).append
      List.not_mem_nil (Dlist.StuHead.allocate_self _ a)
    exact ((hone.allocate b).append (by simpa using hab) (Dlist.StuHead.allocate_self _ b)).listed
  have hlisted' : prochead.store.Listed [a, b] := by
    constructor
    · have hone : (empty.link a).links.IsRing .head ([] ++ [.node a]) :=
        (Links.isRing_initListHead ⟨id, id⟩ Ptr.head).listAddTail (by simp)
      exact hone.listAddTail (by simpa using hab)
    · have hall : (prochead.store.nodeBlocks [a, b]).all prochead.store.live = true := by decide
      exact List.all_eq_true.mp hall
    · decide
  obtain ⟨hdlist, hprocfs⟩ := exit_loops_free_once Nat
  obtain ⟨e, hexit, -, hprinted, hfreed, -⟩ := hdlist stuhead [a, b] hlisted
  obtain ⟨e', hexit', hvisited, hreleased, -⟩ := hprocfs prochead [a, b] hlisted'
  exact ⟨⟨e, hexit, hprinted, hfreed⟩, e', hexit', hvisited, hreleased⟩

end KernelDrivers.Procfs
