import KernelDrivers.Dlist.Fifo

namespace KernelDrivers.Dlist

open Framework Kernel

variable {ρ : Type*}

/-- What `kbuf_exit` has done so far: the memory it leaves, the nodes it has come to, the records it
has printed and the nodes it has freed, all in order. -/
structure Exit (ρ : Type*) where
  dev : StuHead ρ
  visited : List Addr
  printed : List ρ
  freed : List Addr

namespace Exit

/-- Reading `pos->next`. -/
def readNext (e : Exit ρ) (pos : Ptr) : Option Ptr :=
  if e.dev.mapped pos then some (e.dev.links.next pos) else none

/-- The `printk` of the record in a node. -/
def sayGoodbye (e : Exit ρ) (pstu : Addr) : Option (Exit ρ) :=
  if e.dev.alive pstu then some { e with printed := e.printed ++ [e.dev.stu pstu] } else none

def kfree (e : Exit ρ) (pstu : Addr) : Option (Exit ρ) :=
  if e.dev.alive pstu then some { e with dev := e.dev.kfree pstu, freed := e.freed ++ [pstu] }
  else none

/-- The body of the loop. There is no outcome when `container_of` is applied to what is not in a
node, or when a node is read or freed that is not allocated. -/
def body (e : Exit ρ) : Ptr → Option (Exit ρ)
  | .node pstu =>
    (({ e with visited := e.visited ++ [pstu] } : Exit ρ).sayGoodbye pstu).bind fun e =>
      e.kfree pstu
  | _ => none

end Exit

/-- `kbuf_exit` -/
def kbufExit (s : StuHead ρ) : Option (Exit ρ) :=
  let e : Exit ρ := ⟨s, [], [], []⟩
  let pos := s.links.next .head
  (e.readNext pos).bind fun n =>
    Links.forEachSafe Exit.readNext .head Exit.body (SIZE_MAX + 1) pos n e

/-- What `kbuf_exit` has done when these nodes are left of the list. -/
structure Leaving (s : StuHead ρ) (nodes left : List Addr) (e : Exit ρ) : Prop where
  links : e.dev.links = s.links
  stu : e.dev.stu = s.stu
  visited : e.visited ++ left = nodes
  printed : e.printed = e.visited.map s.stu
  freed : e.freed = e.visited
  alive : ∀ n, e.dev.alive n = true ↔ s.alive n = true ∧ n ∉ e.visited

namespace Leaving

variable {s : StuHead ρ} {nodes left : List Addr} {e : Exit ρ}

/-- A node that is left has not been freed. -/
theorem alive_left (he : Leaving s nodes left e) (h : s.Listed nodes) {n : Addr} (hn : n ∈ left) :
    e.dev.alive n = true := by
  have hnodup := h.nodup
  have hmem : n ∈ nodes := by
    rw [← he.visited]
    exact List.mem_append_right _ hn
  rw [← he.visited] at hnodup
  have hnew : n ∉ e.visited := fun hv => (List.nodup_append.mp hnodup).2.2 n hv n hn rfl
  exact (he.alive n).mpr ⟨h.alive n hmem, hnew⟩

theorem readNext_eq (he : Leaving s nodes left e) (h : s.Listed nodes) {p : Ptr}
    (hp : p ∈ Ptr.head :: left.map Ptr.node) : e.readNext p = some (s.links.next p) := by
  have hmapped : e.dev.mapped p = true := by
    rcases List.mem_cons.mp hp with rfl | hmem
    · rfl
    · obtain ⟨n, hn, rfl⟩ := List.mem_map.mp hmem
      exact he.alive_left h hn
  rw [Exit.readNext, if_pos hmapped, he.links]

/-- One iteration comes to the first node left, prints its record and frees it. -/
theorem body_step {n : Addr} (he : Leaving s nodes (n :: left) e) (h : s.Listed nodes) :
    ∃ e', e.body (.node n) = some e' ∧ Leaving s nodes left e' := by
  have halive := he.alive_left h List.mem_cons_self
  have hbody : e.body (.node n) = some ⟨e.dev.kfree n, e.visited ++ [n],
      e.printed ++ [e.dev.stu n], e.freed ++ [n]⟩ := by
    rw [Exit.body, Exit.sayGoodbye, if_pos halive, Option.bind_some, Exit.kfree, if_pos halive]
  refine ⟨_, hbody, he.links, he.stu, ?_, ?_, ?_, ?_⟩
  · rw [List.append_assoc]
    exact he.visited
  · rw [he.printed, he.stu, List.map_append]
    rfl
  · rw [he.freed]
  · intro m
    rw [List.mem_append, List.mem_singleton, not_or, ← and_assoc, ← he.alive m]
    by_cases hm : m = n
    · subst hm
      simp [StuHead.kfree]
    · simp [StuHead.kfree, hm]

end Leaving

/-- `kbuf_exit` comes to an end with every node visited and freed in the order of the list. -/
theorem kbufExit_leaves {s : StuHead ρ} {nodes : List Addr} (h : s.Listed nodes) :
    ∃ e, kbufExit s = some e ∧ Leaving s nodes [] e := by
  have hstart : Leaving s nodes nodes ⟨s, [], [], []⟩ :=
    ⟨rfl, rfl, rfl, rfl, rfl, fun n => (and_iff_left List.not_mem_nil).symm⟩
  apply h.ring.forEachSafe (I := Leaving s nodes) ?_ ?_ hstart (Nat.lt_succ_of_le h.length_le)
  · intro left e he p hp
    exact he.readNext_eq h hp
  · intro n left e _ he
    exact he.body_step h

/-- After any calls `kbuf_exit` says goodbye to the records that no read has delivered. -/
theorem kbufExit_after_calls (links : Links Ptr) (stu : Addr → ρ) (history : List (Call ρ)) :
    let s := (calls links stu).run history
    ∃ dev e, s.dev = some dev ∧ kbufExit dev = some e ∧ s.delivered ++ e.printed = s.appended := by
  intro s
  obtain ⟨dev, nodes, hdev, hholds, hfifo⟩ := run_queued links stu history
  obtain ⟨e, hexit, he⟩ := kbufExit_leaves hholds.listed
  obtain rfl : e.visited = nodes := (List.append_nil _).symm.trans he.visited
  refine ⟨dev, e, hdev, hexit, ?_⟩
  rw [he.printed]
  exact hfifo

end KernelDrivers.Dlist
