import Mathlib.Data.List.Chain
import Mathlib.Data.List.Nodup
import Mathlib.Logic.Function.Basic

namespace KernelDrivers.Framework

/-- The two links of every list head in a memory with places `α`. -/
structure Links (α : Type*) where
  next : α → α
  prev : α → α

namespace Links

variable {α : Type*}

/-- `a` and `b` are neighbours: each has a link to the other. -/
def Linked (l : Links α) (a b : α) : Prop := l.next a = b ∧ l.prev b = a

/-- A circular list headed by `h`: from the head through `xs` and back, with no place
twice. -/
structure IsRing (l : Links α) (h : α) (xs : List α) : Prop where
  chain : (h :: xs ++ [h]).IsChain l.Linked
  nodup : (h :: xs).Nodup

section Operations

variable [DecidableEq α]

/-- `INIT_LIST_HEAD`. -/
def initListHead (l : Links α) (h : α) : Links α where
  next := Function.update l.next h h
  prev := Function.update l.prev h h

/-- `__list_add(new, prev, next)`. -/
def insert (l : Links α) (new prev next : α) : Links α where
  next := Function.update (Function.update l.next new next) prev new
  prev := Function.update (Function.update l.prev next new) new prev

def listAddTail (l : Links α) (new head : α) : Links α := l.insert new (l.prev head) head

/-- `list_del`: the neighbours of the entry are linked, and its own links are poisoned. -/
def listDel (l : Links α) (poison₁ poison₂ entry : α) : Links α where
  next := Function.update (Function.update l.next (l.prev entry) (l.next entry)) entry poison₁
  prev := Function.update (Function.update l.prev (l.next entry) (l.prev entry)) entry poison₂

end Operations

variable {l l' : Links α} {h : α} {xs : List α}

theorem IsRing.next_head {x : α} (hr : l.IsRing h (x :: xs)) : l.next h = x :=
  (List.isChain_cons_cons.mp hr.chain).1.1

theorem IsRing.next_head_nil (hr : l.IsRing h []) : l.next h = h :=
  (List.isChain_cons_cons.mp hr.chain).1.1

/-- Behind the head comes the first entry, or the head again. -/
theorem IsRing.first (hr : l.IsRing h xs) : (xs ++ [h]).head? = some (l.next h) := by
  cases xs with
  | nil => exact congrArg some hr.next_head_nil.symm
  | cons x xs => exact congrArg some hr.next_head.symm

/-- Who is on a chain and not at its end has a successor. -/
theorem exists_successor {R : α → α → Prop} {xs : List α} {b x : α}
    (hc : (xs ++ [b]).IsChain R) (hx : x ∈ xs) : ∃ y ∈ xs ++ [b], R x y := by
  induction xs with
  | nil => exact absurd hx List.not_mem_nil
  | cons a xs ih =>
    cases xs with
    | nil =>
      obtain rfl := List.mem_singleton.mp hx
      exact ⟨b, by simp, (List.isChain_cons_cons.mp hc).1⟩
    | cons a' xs =>
      obtain ⟨hhead, htail⟩ := List.isChain_cons_cons.mp hc
      rcases List.mem_cons.mp hx with rfl | hmem
      · exact ⟨a', by simp, hhead⟩
      · obtain ⟨y, hy, hxy⟩ := ih htail hmem
        exact ⟨y, List.mem_cons_of_mem a hy, hxy⟩

theorem exists_predecessor {R : α → α → Prop} {xs : List α} {a x : α}
    (hc : (a :: xs).IsChain R) (hx : x ∈ xs) : ∃ y ∈ a :: xs, R y x := by
  induction xs generalizing a with
  | nil => exact absurd hx List.not_mem_nil
  | cons b xs ih =>
    obtain ⟨hhead, htail⟩ := List.isChain_cons_cons.mp hc
    rcases List.mem_cons.mp hx with rfl | hmem
    · exact ⟨a, List.mem_cons_self, hhead⟩
    · obtain ⟨y, hy, hyx⟩ := ih htail hmem
      exact ⟨y, List.mem_cons_of_mem a hy, hyx⟩

theorem IsRing.next_mem (hr : l.IsRing h xs) {x : α} (hx : x ∈ h :: xs) :
    l.next x ∈ h :: xs ∧ l.prev (l.next x) = x := by
  obtain ⟨y, hy, hnext, hprev⟩ := exists_successor hr.chain hx
  rw [hnext]
  exact ⟨by simpa [or_comm] using hy, hprev⟩

theorem IsRing.prev_mem (hr : l.IsRing h xs) {x : α} (hx : x ∈ h :: xs) :
    l.prev x ∈ h :: xs ∧ l.next (l.prev x) = x := by
  have hx' : x ∈ xs ++ [h] := by simpa [or_comm] using hx
  obtain ⟨y, hy, hnext, hprev⟩ := exists_predecessor hr.chain hx'
  rw [hprev]
  exact ⟨by simpa [or_comm] using hy, hnext⟩

/-- A chain that ends where it comes to `b` is fixed by the links forward. -/
theorem chain_unique {ys : List α} {a b : α} (hx : (a :: xs ++ [b]).IsChain l.Linked)
    (hy : (a :: ys ++ [b]).IsChain l.Linked) (hbx : b ∉ xs) (hby : b ∉ ys) : xs = ys := by
  induction xs generalizing a ys with
  | nil =>
    obtain ⟨⟨hn, -⟩, -⟩ := List.isChain_cons_cons.mp hx
    cases ys with
    | nil => rfl
    | cons y ys =>
      obtain ⟨⟨hn', -⟩, -⟩ := List.isChain_cons_cons.mp hy
      exact absurd (List.mem_cons.mpr (Or.inl (hn.symm.trans hn'))) hby
  | cons x xs ih =>
    obtain ⟨⟨hn, -⟩, hxs⟩ := List.isChain_cons_cons.mp hx
    cases ys with
    | nil =>
      obtain ⟨⟨hn', -⟩, -⟩ := List.isChain_cons_cons.mp hy
      exact absurd (List.mem_cons.mpr (Or.inl (hn'.symm.trans hn))) hbx
    | cons y ys =>
      obtain ⟨⟨hn', -⟩, hys⟩ := List.isChain_cons_cons.mp hy
      obtain rfl := hn.symm.trans hn'
      rw [List.mem_cons, not_or] at hbx hby
      rw [ih hxs hys hbx.2 hby.2]

/-- The links of a circular list fix its entries. -/
theorem IsRing.unique {ys : List α} (hx : l.IsRing h xs) (hy : l.IsRing h ys) : xs = ys :=
  chain_unique hx.chain hy.chain (List.nodup_cons.mp hx.nodup).1 (List.nodup_cons.mp hy.nodup).1

/-- Things whose places make up a list are distinct. -/
theorem IsRing.nodup_of_map {β : Type*} {f : β → α} {ys : List β} (hr : l.IsRing h (ys.map f)) :
    ys.Nodup := (List.nodup_cons.mp hr.nodup).2.of_map

/-- The links that are read among the last entries of a list are those of the list. -/
theorem IsRing.chain_of_suffix (hr : l.IsRing h xs) {left : List α} (hleft : left <:+ xs)
    {next : α → Option α} (hnext : ∀ p ∈ h :: left, next p = some (l.next p)) :
    (left ++ [h]).IsChain fun a b => next a = some b := by
  obtain ⟨past, rfl⟩ := hleft
  have hchain := hr.chain
  rw [List.cons_append, List.append_assoc, ← List.cons_append] at hchain
  apply hchain.right_of_append.imp_of_mem_imp
  intro a b ha _ hlink
  have hmem : a ∈ h :: left := by simpa [or_comm] using ha
  rw [hnext a hmem]
  exact congrArg some hlink.1

/-- A chain is kept by links that agree on the places it links. -/
theorem chain_congr {xs : List α} {a b : α} (hc : (a :: xs ++ [b]).IsChain l.Linked)
    (hnext : ∀ x ∈ a :: xs, l'.next x = l.next x) (hprev : ∀ x ∈ xs ++ [b], l'.prev x = l.prev x) :
    (a :: xs ++ [b]).IsChain l'.Linked := by
  induction xs generalizing a with
  | nil =>
    obtain ⟨⟨hn, hp⟩, -⟩ := List.isChain_cons_cons.mp hc
    refine List.isChain_cons_cons.mpr ⟨⟨?_, ?_⟩, List.isChain_singleton b⟩
    · rw [hnext a List.mem_cons_self, hn]
    · rw [hprev b (by simp), hp]
  | cons x xs ih =>
    obtain ⟨⟨hn, hp⟩, htail⟩ := List.isChain_cons_cons.mp hc
    refine List.isChain_cons_cons.mpr ⟨⟨?_, ?_⟩, ih htail ?_ ?_⟩
    · rw [hnext a List.mem_cons_self, hn]
    · rw [hprev x (by simp), hp]
    · exact fun y hy => hnext y (List.mem_cons_of_mem _ hy)
    · exact fun y hy => hprev y (List.mem_cons_of_mem _ hy)

section Operations

variable [DecidableEq α]

theorem isRing_initListHead (l : Links α) (h : α) : (l.initListHead h).IsRing h [] where
  chain := by simp [Linked, initListHead]
  nodup := List.nodup_singleton h

/-- `list_add_tail` of a new entry puts it at the end of the list. -/
theorem IsRing.listAddTail (hr : l.IsRing h xs) {new : α} (hnew : new ∉ h :: xs) :
    (l.listAddTail new h).IsRing h (xs ++ [new]) where
  chain := by
    rcases List.eq_nil_or_concat' xs with rfl | ⟨ys, p, rfl⟩
    · obtain ⟨⟨-, hp⟩, -⟩ := List.isChain_cons_cons.mp hr.chain
      have hne : new ≠ h := by simpa using hnew
      simp [Linked, Links.listAddTail, Links.insert, hp, hne, Ne.symm hne]
    · have hchain := hr.chain
      have hnodup := hr.nodup
      have hold : h :: (ys ++ [p]) ++ [h] = h :: ys ++ p :: h :: [] := by simp
      have hext : h :: (ys ++ [p] ++ [new]) ++ [h] = h :: ys ++ p :: new :: [h] := by simp
      rw [hold] at hchain
      obtain ⟨hys, ⟨-, hp⟩, -⟩ := List.isChain_append_cons_cons.mp hchain
      simp only [List.nodup_cons, List.nodup_append, List.mem_append, List.mem_cons,
        List.not_mem_nil, or_false, not_or] at hnodup hnew
      obtain ⟨⟨hhys, hhp⟩, -, -, hysp⟩ := hnodup
      obtain ⟨hnewh, hnewys, hnewp⟩ := hnew
      rw [hext, List.isChain_append_cons_cons]
      refine ⟨chain_congr hys (fun x hx => ?_) (fun x hx => ?_), ?_, ?_⟩
      · -- links forward change at `new` and `p` only
        have hxnew : x ≠ new := by
          rintro rfl
          exact (List.mem_cons.mp hx).elim hnewh hnewys
        have hxp : x ≠ p := by
          rcases List.mem_cons.mp hx with rfl | hmem
          · exact hhp
          · exact hysp x hmem p rfl
        simp [Links.listAddTail, Links.insert, hp, hxnew, hxp]
      · -- links back change at `h` and `new` only
        have hxh : x ≠ h := by
          rintro rfl
          rcases List.mem_append.mp hx with hmem | hmem
          · exact hhys hmem
          · exact hhp (List.mem_singleton.mp hmem)
        have hxnew : x ≠ new := by
          rintro rfl
          rcases List.mem_append.mp hx with hmem | hmem
          · exact hnewys hmem
          · exact hnewp (List.mem_singleton.mp hmem)
        simp [Links.listAddTail, Links.insert, hxh, hxnew]
      · simp [Linked, Links.listAddTail, Links.insert, hp]
      · simp [Linked, Links.listAddTail, Links.insert, hp, hnewp, Ne.symm hnewh]
  nodup := by
    have hnodup := hr.nodup
    rw [← List.cons_append]
    exact List.nodup_append.mpr ⟨hnodup, List.nodup_singleton _, by
      intro x hx y hy
      obtain rfl := List.mem_singleton.mp hy
      rintro rfl
      exact hnew hx⟩

/-- `list_del` of the first entry leaves the rest of the list. -/
theorem IsRing.listDel {x : α} (hr : l.IsRing h (x :: xs)) (p₁ p₂ : α) :
    (l.listDel p₁ p₂ x).IsRing h xs where
  chain := by
    obtain ⟨⟨hn, hp⟩, htail⟩ := List.isChain_cons_cons.mp hr.chain
    obtain ⟨hhead, hnodup⟩ := List.nodup_cons.mp hr.nodup
    obtain ⟨hx, hnodup⟩ := List.nodup_cons.mp hnodup
    simp only [List.mem_cons, not_or] at hhead
    obtain ⟨hhx, hhxs⟩ := hhead
    cases xs with
    | nil =>
      obtain ⟨⟨hnx, -⟩, -⟩ := List.isChain_cons_cons.mp htail
      simp [Linked, Links.listDel, hnx, hp, hhx]
    | cons y ys =>
      obtain ⟨⟨hnx, -⟩, hys⟩ := List.isChain_cons_cons.mp htail
      simp only [List.mem_cons, not_or] at hx hhxs
      obtain ⟨hxy, hxys⟩ := hx
      have hyys := (List.nodup_cons.mp hnodup).1
      refine List.isChain_cons_cons.mpr ⟨?_, chain_congr hys (fun z hz => ?_) (fun z hz => ?_)⟩
      · simp [Linked, Links.listDel, hnx, hp, hhx, Ne.symm hxy]
      · -- links forward change at `h` and `x` only
        have hzh : z ≠ h := by
          rintro rfl
          exact (List.mem_cons.mp hz).elim hhxs.1 hhxs.2
        have hzx : z ≠ x := by
          rintro rfl
          exact (List.mem_cons.mp hz).elim hxy hxys
        simp [Links.listDel, hp, hzh, hzx]
      · -- links back change at `y` and `x` only
        have hzy : z ≠ y := by
          rintro rfl
          rcases List.mem_append.mp hz with hmem | hmem
          · exact hyys hmem
          · exact hhxs.1 (List.mem_singleton.mp hmem).symm
        have hzx : z ≠ x := by
          rintro rfl
          rcases List.mem_append.mp hz with hmem | hmem
          · exact hxys hmem
          · exact hhx (List.mem_singleton.mp hmem).symm
        simp [Links.listDel, hnx, hzy, hzx]
  nodup := hr.nodup.sublist (List.Sublist.cons_cons h (List.sublist_cons_self x xs))

end Operations

section Traversals

variable [DecidableEq α] {σ : Type*}

/-- `list_for_each_entry` from the entry `pos` on. There is no outcome when the body has none,
or when the steps given do not suffice. -/
def forEach (l : Links α) (head : α) (body : σ → α → Option σ) : Nat → α → σ → Option σ
  | 0, _, _ => none
  | steps + 1, pos, s =>
    if pos = head then some s
    else (body s pos).bind (l.forEach head body steps (l.next pos))

/-- `list_for_each_entry_safe` from the entry `pos` on, `n` being its successor: this was read
before the body runs on `pos`, and the successor of `n` is read after that. -/
def forEachSafe (next : σ → α → Option α) (head : α) (body : σ → α → Option σ) :
    Nat → α → α → σ → Option σ
  | 0, _, _, _ => none
  | steps + 1, pos, n, s =>
    if pos = head then some s
    else (body s pos).bind fun s => (next s n).bind fun after =>
      forEachSafe next head body steps n after s

theorem forEach_chain {head p : α} (hc : (p :: xs ++ [head]).IsChain l.Linked)
    (hh : head ∉ xs) (body : σ → α → Option σ) {steps : Nat} (hsteps : xs.length < steps) (s : σ) :
    l.forEach head body steps (l.next p) s = xs.foldlM body s := by
  induction xs generalizing p steps s with
  | nil =>
    obtain ⟨⟨hn, -⟩, -⟩ := List.isChain_cons_cons.mp hc
    obtain ⟨steps, rfl⟩ := Nat.exists_eq_add_one.mpr hsteps
    rw [hn]
    exact if_pos rfl
  | cons x xs ih =>
    obtain ⟨⟨hn, -⟩, htail⟩ := List.isChain_cons_cons.mp hc
    obtain ⟨steps, rfl⟩ := Nat.exists_eq_add_one.mpr (Nat.zero_lt_of_lt hsteps)
    rw [List.mem_cons, not_or] at hh
    have hrest := Nat.lt_of_succ_lt_succ hsteps
    rw [hn, forEach, if_neg (Ne.symm hh.1), List.foldlM_cons]
    exact Option.bind_congr fun s' _ => ih htail hh.2 hrest s'

/-- The loop over a list runs its body on the entries in order. -/
theorem IsRing.forEach (hr : l.IsRing h xs) (body : σ → α → Option σ) {steps : Nat}
    (hsteps : xs.length < steps) (s : σ) :
    l.forEach h body steps (l.next h) s = xs.foldlM body s :=
  forEach_chain hr.chain (List.nodup_cons.mp hr.nodup).1 body hsteps s

/-- The rule of the loop that lets its body remove the entries: an invariant about the entries
left, under which the body runs on the first one, and under which the links that are read
lead through the ones left. -/
theorem forEachSafe_invariant {next : σ → α → Option α} {head : α} {body : σ → α → Option σ}
    {I : List α → σ → Prop} (hhead : ∀ xs s, I xs s → head ∉ xs ∧ (next s head).isSome)
    (hlinks : ∀ xs s, I xs s → (xs ++ [head]).IsChain fun a b => next s a = some b)
    (hbody : ∀ x xs s, I (x :: xs) s → ∃ s', body s x = some s' ∧ I xs s')
    {xs : List α} {s : σ} (hi : I xs s) {pos n : α} (hpos : (xs ++ [head]).head? = some pos)
    (hn : next s pos = some n) {steps : Nat} (hsteps : xs.length < steps) :
    ∃ s', forEachSafe next head body steps pos n s = some s' ∧ I [] s' := by
  induction xs generalizing s pos n steps with
  | nil =>
    obtain ⟨steps, rfl⟩ := Nat.exists_eq_add_one.mpr hsteps
    obtain rfl := Option.some.inj hpos
    exact ⟨s, if_pos rfl, hi⟩
  | cons x xs ih =>
    obtain ⟨steps, rfl⟩ := Nat.exists_eq_add_one.mpr (Nat.zero_lt_of_lt hsteps)
    obtain rfl := Option.some.inj hpos
    obtain ⟨s', hs', hi'⟩ := hbody x xs s hi
    have hne := (hhead _ s hi).1
    rw [List.mem_cons, not_or] at hne
    -- the successor that was read is where the entries left begin
    have hfirst : (xs ++ [head]).head? = some n := by
      have hchain := hlinks _ s hi
      cases xs with
      | nil =>
        have hlink := (List.isChain_cons_cons.mp hchain).1
        exact hlink.symm.trans hn
      | cons y ys =>
        have hlink := (List.isChain_cons_cons.mp hchain).1
        exact hlink.symm.trans hn
    have hafter : ∃ after, next s' n = some after := by
      have hchain := hlinks xs s' hi'
      cases xs with
      | nil =>
        obtain rfl := Option.some.inj hfirst
        exact Option.isSome_iff_exists.mp (hhead [] s' hi').2
      | cons y ys =>
        obtain rfl := Option.some.inj hfirst
        cases ys with
        | nil => exact ⟨head, (List.isChain_cons_cons.mp hchain).1⟩
        | cons z zs => exact ⟨z, (List.isChain_cons_cons.mp hchain).1⟩
    obtain ⟨after, hafter⟩ := hafter
    have hrest := ih hi' hfirst hafter (Nat.lt_of_succ_lt_succ hsteps)
    rw [forEachSafe, if_neg (Ne.symm hne.1), hs', Option.bind_some, hafter, Option.bind_some]
    exact hrest

/-- The rule of that loop over a whole list, whose entries are the places `f` of some things: the
body may do away with the entry it runs on, as long as the links of the head and of the entries
left can be read. -/
theorem IsRing.forEachSafe {β : Type*} {f : β → α} {ys : List β} (hr : l.IsRing h (ys.map f))
    {next : σ → α → Option α} {body : σ → α → Option σ} {I : List β → σ → Prop}
    (hnext : ∀ left s, I left s → ∀ p ∈ h :: left.map f, next s p = some (l.next p))
    (hbody : ∀ y left s, y :: left <:+ ys → I (y :: left) s →
      ∃ s', body s (f y) = some s' ∧ I left s')
    {s : σ} (hi : I ys s) {steps : Nat} (hsteps : ys.length < steps) :
    ∃ s', ((next s (l.next h)).bind fun n =>
      Links.forEachSafe next h body steps (l.next h) n s) = some s' ∧ I [] s' := by
  have hn : next s (l.next h) = some (l.next (l.next h)) :=
    hnext ys s hi _ (hr.next_mem List.mem_cons_self).1
  have hhead : h ∉ ys.map f := (List.nodup_cons.mp hr.nodup).1
  let J := fun xs s => ∃ left, xs = left.map f ∧ left <:+ ys ∧ I left s
  have hloop : ∃ s', Links.forEachSafe next h body steps (l.next h) (l.next (l.next h)) s = some s' ∧
      J [] s' := by
    apply forEachSafe_invariant (I := J) ?_ ?_ ?_ ⟨ys, rfl, List.suffix_rfl, hi⟩ hr.first hn
    · rwa [List.length_map]
    · rintro xs s ⟨left, rfl, hsuffix, hi⟩
      refine ⟨fun hmem => hhead ((hsuffix.map f).subset hmem), ?_⟩
      rw [hnext left s hi h List.mem_cons_self]
      rfl
    · rintro xs s ⟨left, rfl, hsuffix, hi⟩
      exact hr.chain_of_suffix (hsuffix.map f) (hnext left s hi)
    · rintro x xs s ⟨left, hleft, hsuffix, hi⟩
      cases left with
      | nil => cases hleft
      | cons y left =>
        obtain ⟨rfl, rfl⟩ := List.cons.inj hleft
        obtain ⟨s', hs', hi'⟩ := hbody y left s hsuffix hi
        exact ⟨s', hs', left, rfl, (List.suffix_cons y left).trans hsuffix, hi'⟩
  obtain ⟨s', hs', left, hleft, -, hdone⟩ := hloop
  obtain rfl := List.map_eq_nil_iff.mp hleft.symm
  refine ⟨s', ?_, hdone⟩
  rw [hn, Option.bind_some, hs']

end Traversals

end Links

end KernelDrivers.Framework
