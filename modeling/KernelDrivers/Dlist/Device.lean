import Mathlib.Data.Fintype.Card
import KernelDrivers.Framework.CircularList
import KernelDrivers.Kernel.Basic

namespace KernelDrivers.Dlist

open Framework Kernel

def LIMIT_STU : Nat := 50

/-- `struct stu`. -/
structure Stu where
  name : Fin 32 → Byte
  old : UInt32

/-- `sizeof(struct stu)`. -/
def sizeofStu : Nat := 36

/-- What `kmalloc` can return other than `NULL`. -/
abbrev Addr := Fin SIZE_MAX

/-- A pointer to a `struct list_head`: that of `stuhead`, that of the node at an address, or
one of the two that `list_del` leaves. -/
inductive Ptr where
  | head
  | node (n : Addr)
  | poison1
  | poison2
  deriving DecidableEq

/-- `stuhead.num` and the memory of the list. Memory that is not allocated keeps what was
last written there. -/
structure StuHead (ρ : Type*) where
  links : Links Ptr
  stu : Addr → ρ
  alive : Addr → Bool
  num : Nat

namespace StuHead

variable {ρ : Type*}

/-- After `kbuf_init`, in a memory with any links and records. -/
def init (links : Links Ptr) (stu : Addr → ρ) : StuHead ρ :=
  ⟨links.initListHead .head, stu, fun _ => false, 0⟩

/-- Whether there is a `struct list_head` at a pointer. -/
def mapped (s : StuHead ρ) : Ptr → Bool
  | .head => true
  | .node n => s.alive n
  | _ => false

/-- `kmalloc` fails or returns memory that is not in use. -/
def kmalloc (s : StuHead ρ) (choice : Option Addr) : Option Addr :=
  choice.filter fun n => !s.alive n

def allocate (s : StuHead ρ) (n : Addr) : StuHead ρ :=
  { s with alive := Function.update s.alive n true }

def kfree (s : StuHead ρ) (n : Addr) : StuHead ρ :=
  { s with alive := Function.update s.alive n false }

def store (s : StuHead ρ) (n : Addr) (stu : ρ) : StuHead ρ :=
  { s with stu := Function.update s.stu n stu }

/-- `list_add_tail(&n->list, &stuhead.head); stuhead.num++`. -/
def append (s : StuHead ρ) (n : Addr) : StuHead ρ :=
  { s with links := s.links.listAddTail (.node n) .head, num := sizeAdd s.num 1 }

/-- `list_del(stuhead.head.next); stuhead.num--`. -/
def unlinkFirst (s : StuHead ρ) : StuHead ρ :=
  { s with
    links := s.links.listDel .poison1 .poison2 (s.links.next .head)
    num := sizeSub s.num 1 }

@[simp] theorem allocate_self (s : StuHead ρ) (n : Addr) : (s.allocate n).alive n = true := by
  simp [allocate]

@[simp] theorem store_self (s : StuHead ρ) (n : Addr) (stu : ρ) : (s.store n stu).stu n = stu := by
  simp [store]

theorem store_of_ne (s : StuHead ρ) {m n : Addr} (h : m ≠ n) (stu : ρ) :
    (s.store n stu).stu m = s.stu m := by simp [store, h]

end StuHead

/-- What a call does: its return value, the record it hands to the user, the state it leaves,
and whether it has appended or removed a node. -/
structure Outcome (ρ : Type*) where
  ret : Int
  out : Option ρ
  dev : StuHead ρ
  moved : Bool

variable {ρ : Type*}

/-- `kbuf_read`, `left` being what `copy_to_user` would not copy. There is no outcome when
`container_of` is applied to what is not in a node, or when memory is used that is not
allocated. -/
def kbufRead (s : StuHead ρ) (cnt left : Nat) : Option (Outcome ρ) :=
  if cnt ≠ sizeofStu then some ⟨-einval, none, s, false⟩
  else if s.num = 0 then some ⟨0, none, s, false⟩
  else
    match s.links.next .head with
    | .node stu =>
      if s.alive stu = false then none
      else if min left cnt ≠ 0 then some ⟨-einval, none, s, false⟩
      else
        let first := s.links.next .head
        if s.mapped (s.links.prev first) && s.mapped (s.links.next first) then
          some ⟨cnt, some (s.stu stu), s.unlinkFirst.kfree stu, true⟩
        else none
    | _ => none

/-- `kbuf_write` of the record `buf`, `left` being what `copy_from_user` would not copy and
`junk` what it then leaves in the node. -/
def kbufWrite (s : StuHead ρ) (cnt : Nat) (buf : ρ) (choice : Option Addr) (left : Nat) (junk : ρ) :
    Option (Outcome ρ) :=
  if cnt ≠ sizeofStu then some ⟨-einval, none, s, false⟩
  else if LIMIT_STU < s.num then some ⟨-eagain, none, s, false⟩
  else
    match s.kmalloc choice with
    | none => some ⟨-enomem, none, s, false⟩
    | some n =>
      let s := s.allocate n
      if min left cnt ≠ 0 then some ⟨(min left cnt : Nat), none, s.store n junk, false⟩
      else
        let s := s.store n buf
        if s.mapped (s.links.prev .head) then some ⟨cnt, none, s.append n, true⟩
        else none

/-- A circular list of these nodes, all of them allocated. -/
structure StuHead.Listed (s : StuHead ρ) (nodes : List Addr) : Prop where
  ring : s.links.IsRing .head (nodes.map .node)
  alive : ∀ n ∈ nodes, s.alive n = true

namespace StuHead.Listed

variable {s : StuHead ρ} {nodes : List Addr}

theorem nodup (h : s.Listed nodes) : nodes.Nodup := h.ring.nodup_of_map

/-- There are fewer nodes than a `size_t` can count, since each has an address. -/
theorem length_le (h : s.Listed nodes) : nodes.length ≤ SIZE_MAX := by
  have hcard := h.nodup.length_le_card
  rwa [Fintype.card_fin] at hcard

end StuHead.Listed

/-- The list holds the nodes in this order, all of them allocated, and `num` counts them. -/
structure StuHead.Holds (s : StuHead ρ) (nodes : List Addr) : Prop where
  ring : s.links.IsRing .head (nodes.map .node)
  alive : ∀ n ∈ nodes, s.alive n = true
  num : s.num = nodes.length

theorem StuHead.init_holds (links : Links Ptr) (stu : Addr → ρ) : (init links stu).Holds [] where
  ring := Links.isRing_initListHead links .head
  alive := fun _ h => absurd h List.not_mem_nil
  num := rfl

namespace StuHead.Holds

variable {s : StuHead ρ} {nodes : List Addr}

theorem listed (h : s.Holds nodes) : s.Listed nodes := ⟨h.ring, h.alive⟩

theorem nodup (h : s.Holds nodes) : nodes.Nodup := h.listed.nodup

theorem length_le (h : s.Holds nodes) : nodes.length ≤ SIZE_MAX := h.listed.length_le

/-- The places on the ring are there. -/
theorem mapped (h : s.Holds nodes) {p : Ptr} (hp : p ∈ .head :: nodes.map .node) :
    s.mapped p = true := by
  rcases List.mem_cons.mp hp with rfl | hmem
  · rfl
  · obtain ⟨n, hn, rfl⟩ := List.mem_map.mp hmem
    exact h.alive n hn

theorem not_mem {n : Addr} (h : s.Holds nodes) (hn : s.alive n = false) : n ∉ nodes := by
  intro hmem
  exact absurd ((h.alive n hmem).symm.trans hn) (by decide)

theorem allocate (h : s.Holds nodes) (n : Addr) : (s.allocate n).Holds nodes where
  ring := h.ring
  alive m hm := by
    by_cases hmn : m = n
    · subst hmn
      exact Function.update_self m true s.alive
    · exact (Function.update_of_ne hmn true s.alive).trans (h.alive m hm)
  num := h.num

theorem store (h : s.Holds nodes) (n : Addr) (stu : ρ) : (s.store n stu).Holds nodes :=
  ⟨h.ring, h.alive, h.num⟩

theorem kfree (h : s.Holds nodes) {n : Addr} (hn : n ∉ nodes) : (s.kfree n).Holds nodes where
  ring := h.ring
  alive m hm := by
    have hmn : m ≠ n := by
      rintro rfl
      exact hn hm
    exact (Function.update_of_ne hmn false s.alive).trans (h.alive m hm)
  num := h.num

theorem append (h : s.Holds nodes) {n : Addr} (hn : n ∉ nodes) (halive : s.alive n = true) :
    (s.append n).Holds (nodes ++ [n]) where
  ring := by
    have hnew : Ptr.node n ∉ Ptr.head :: nodes.map .node := by
      simpa using hn
    rw [List.map_append]
    exact h.ring.listAddTail hnew
  alive m hm := by
    rcases List.mem_append.mp hm with hmem | hmem
    · exact h.alive m hmem
    · rw [List.mem_singleton.mp hmem]
      exact halive
  num := by
    have hnodup : (nodes ++ [n]).Nodup := by
      rw [List.nodup_append]
      exact ⟨h.nodup, List.nodup_singleton n, by simpa using fun m hm => ne_of_mem_of_not_mem hm hn⟩
    have hcard := hnodup.length_le_card
    rw [Fintype.card_fin, List.length_append, List.length_singleton] at hcard
    show sizeAdd s.num 1 = (nodes ++ [n]).length
    rw [h.num, sizeAdd_of_lt hcard, List.length_append]
    rfl

theorem first {n : Addr} (h : s.Holds (n :: nodes)) : s.links.next .head = .node n :=
  h.ring.next_head

theorem unlinkFirst {n : Addr} (h : s.Holds (n :: nodes)) : s.unlinkFirst.Holds nodes where
  ring := by
    show (s.links.listDel .poison1 .poison2 (s.links.next .head)).IsRing .head (nodes.map .node)
    rw [h.first]
    exact h.ring.listDel .poison1 .poison2
  alive m hm := h.alive m (List.mem_cons_of_mem n hm)
  num := by
    have hlen := h.length_le
    show sizeSub s.num 1 = nodes.length
    rw [h.num, sizeSub_of_le (by simp) hlen]
    simp

end StuHead.Holds

end KernelDrivers.Dlist
