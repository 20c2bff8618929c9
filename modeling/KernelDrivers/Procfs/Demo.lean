import KernelDrivers.Framework.Machine
import KernelDrivers.Procfs.Store

namespace KernelDrivers.Procfs

open Framework Kernel

/-- `SZ_1M`. -/
def USER_LIMITS : Nat := 1048576

/-- `struct prochead`. -/
structure ProcHead where
  store : Store
  total : Nat

/-- The size of the buffer that a write allocates does not wrap. -/
theorem sizeAdd_one {count : Nat} (h : count ≤ USER_LIMITS) : sizeAdd count 1 = count + 1 := by
  have hsize : USER_LIMITS < SIZE_MAX := by decide
  exact sizeAdd_of_lt (Nat.lt_of_le_of_lt h hsize)

/-- What a write is called with, what its allocations would return, and what becomes of its
copy. -/
structure Write where
  buffer : List Byte
  choices : Choices
  fate : CopyFate

/-- What a write does: its return value, the state it leaves, and what it has stored. -/
structure Outcome where
  ret : Int
  head : ProcHead
  stored : List (List Byte)

/-- The tests of `usr_proc_write` on `count` and `total`: what it returns, or the `count` that
it goes on with. -/
def testCount (total count : Nat) : Except Int Nat :=
  if count = 0 then .error 0
  else if USER_LIMITS ≤ total then .error (-enomem)
  else .ok (min count (sizeSub USER_LIMITS total))

/-- `node->kbuf[count] = '\0'; list_add_tail(&node->list, &prochead.head);
prochead.total += count`. -/
def ProcHead.append (s : ProcHead) (node : Addr) (count : Nat) : Option ProcHead :=
  (s.store.publish node count).map fun store => ⟨store, sizeAdd s.total count⟩

/-- `usr_proc_write`. There is no outcome when memory is used that is not allocated. -/
def usrProcWrite (s : ProcHead) (w : Write) : Option Outcome :=
  match testCount s.total w.buffer.length with
  | .error ret => some ⟨ret, s, []⟩
  | .ok count =>
    match s.store.newNode (sizeAdd count 1) w.choices with
    | (store, none) => some ⟨-enomem, ⟨store, s.total⟩, []⟩
    | (store, some node) =>
      let bytes := w.buffer.take count
      (store.copyFromUser (store.kbuf node) bytes w.fate).bind fun copied =>
        if copied.2 ≠ 0 then some ⟨copied.2, ⟨copied.1, s.total⟩, []⟩
        else
          let head : ProcHead := ⟨copied.1, s.total⟩
          (head.append node count).map fun head => ⟨count, head, [bytes]⟩

/-- The bytes that a write takes when it gets as far as its copy. -/
def Write.taken (w : Write) (s : ProcHead) : List Byte :=
  w.buffer.take (min w.buffer.length (USER_LIMITS - s.total))

/-- The state of the driver, none once something has gone wrong, and what the writes so far
have stored. -/
structure Session where
  head : Option ProcHead
  accepted : List (List Byte)

def Session.step (s : Session) (w : Write) : Session :=
  match s.head.bind fun head => usrProcWrite head w with
  | none => { s with head := none }
  | some o => ⟨some o.head, s.accepted ++ o.stored⟩

/-- Writes one after another, from `demo_init` on. -/
def writes (links : Links Ptr) (kbuf : Addr → Addr) (data : Addr → List Byte) :
    Machine Session Write where
  init := ⟨some ⟨.init links kbuf data, 0⟩, []⟩
  step := Session.step

/-- The list holds the items, none of them empty, and `total` counts their bytes. -/
structure ProcHead.Accounted (s : ProcHead) (items : List Item) : Prop where
  holds : s.store.Holds items
  total : s.total = (items.map Item.text).flatten.length
  limit : s.total ≤ USER_LIMITS
  text : ∀ i ∈ items, i.text ≠ []

/-- What appending a node with a filled buffer leaves. -/
def ProcHead.appended (s : ProcHead) (n : Addr) (bs : List Byte) : ProcHead :=
  ⟨(s.store.write (s.store.kbuf n) (bs ++ [0])).link n, s.total + bs.length⟩

namespace ProcHead.Accounted

variable {s : ProcHead} {items : List Item}

/-- The subtraction in `usr_proc_write` does not wrap. -/
theorem left (h : s.Accounted items) : sizeSub USER_LIMITS s.total = USER_LIMITS - s.total :=
  sizeSub_of_le h.limit (by decide)

/-- The accounting is about the items, not about what else is in memory. -/
theorem of_holds (h : s.Accounted items) {store : Store} (hholds : store.Holds items) :
    Accounted ⟨store, s.total⟩ items :=
  ⟨hholds, h.total, h.limit, h.text⟩

theorem of_same (h : s.Accounted items) {store : Store} (hs : Store.Same s.store store) :
    Accounted ⟨store, s.total⟩ items :=
  h.of_holds (hs.holds h.holds)

/-- What `testCount` does, by the state it finds. -/
theorem testCount_cases (h : s.Accounted items) (count : Nat) :
    (count = 0 ∧ testCount s.total count = .error 0) ∨
    (0 < count ∧ s.total = USER_LIMITS ∧ testCount s.total count = .error (-enomem)) ∨
    (0 < count ∧ s.total < USER_LIMITS ∧
      testCount s.total count = .ok (min count (USER_LIMITS - s.total))) := by
  have hlimit := h.limit
  unfold testCount
  by_cases hcount : count = 0
  · exact Or.inl ⟨hcount, if_pos hcount⟩
  rw [if_neg hcount]
  by_cases hfull : USER_LIMITS ≤ s.total
  · exact Or.inr (Or.inl ⟨by omega, by omega, if_pos hfull⟩)
  · rw [if_neg hfull, h.left]
    exact Or.inr (Or.inr ⟨by omega, by omega, rfl⟩)

theorem append_eq (h : s.Accounted items) {n : Addr} {bs : List Byte}
    (hn : s.store.Loose items n bs.length) {last : Byte}
    (hdata : s.store.data (s.store.kbuf n) = bs ++ [last]) (hbs : bs.length ≤ USER_LIMITS) :
    s.append n bs.length = some (s.appended n bs) := by
  have hlimit := h.limit
  have hsize : USER_LIMITS + USER_LIMITS ≤ SIZE_MAX := by decide
  have hadd : sizeAdd s.total bs.length = s.total + bs.length := sizeAdd_of_lt (by omega)
  rw [ProcHead.append, (Store.publish_loose h.holds hn hdata).1, hadd]
  rfl

/-- Appending what does not go beyond the limit. -/
theorem append (h : s.Accounted items) {n : Addr} {bs : List Byte}
    (hn : s.store.Loose items n bs.length) {last : Byte}
    (hdata : s.store.data (s.store.kbuf n) = bs ++ [last]) (hbs : bs ≠ [])
    (hlimit : s.total + bs.length ≤ USER_LIMITS) :
    (s.appended n bs).Accounted (items ++ [⟨n, bs⟩]) := by
  constructor
  · exact (Store.publish_loose h.holds hn hdata).2
  · show s.total + bs.length = _
    simp [h.total]
  · exact hlimit
  · intro i hi
    rcases List.mem_append.mp hi with hi | hi
    · exact h.text i hi
    · rw [List.mem_singleton.mp hi]
      exact hbs

end ProcHead.Accounted

variable {s : ProcHead} {items : List Item}

/-- A write gets as far as its copy. -/
def Write.Reaches (w : Write) (s : ProcHead) : Prop :=
  w.buffer ≠ [] ∧ s.total < USER_LIMITS ∧ s.store.Allocates w.choices

theorem taken_length {w : Write} (hw : w.Reaches s) :
    (w.taken s).length = min w.buffer.length (USER_LIMITS - s.total) ∧
      0 < (w.taken s).length ∧ s.total + (w.taken s).length ≤ USER_LIMITS := by
  obtain ⟨hbuffer, hlimit, -⟩ := hw
  have hpos := List.length_pos_iff.mpr hbuffer
  have hlen : (w.taken s).length = min w.buffer.length (USER_LIMITS - s.total) := by
    rw [Write.taken, List.length_take]
    omega
  omega

/-- The copy of a write into a new node, and what follows when it succeeds. -/
theorem copy_ends (h : s.Accounted items) {w : Write} (hw : w.Reaches s) {n b : Addr}
    (hn : s.store.live n = false) (hb : s.store.live b = false) (hbn : b ≠ n) {store : Store}
    (hstore : s.store.withNode n b ((w.taken s).length + 1) = store) :
    ∃ copied, store.copyFromUser (store.kbuf n) (w.taken s) w.fate =
        some (copied, w.fate.residue (w.taken s).length) ∧ copied.Holds items ∧
      (w.fate.residue (w.taken s).length = 0 →
        ∃ s', ProcHead.append ⟨copied, s.total⟩ n (w.taken s).length = some s' ∧
          s'.Accounted (items ++ [⟨n, w.taken s⟩]) ∧
          s'.total = s.total + (w.taken s).length) := by
  subst hstore
  obtain ⟨-, hpos, hlimit⟩ := taken_length hw
  have hholds := Store.withNode_holds h.holds hn hb ((w.taken s).length + 1)
  have hloose := Store.withNode_loose h.holds hn hb hbn (w.taken s).length
  obtain ⟨bytes, hcopy, hsize, hfilled⟩ := Store.copyFromUser_loose hloose w.fate
  have hkept := hloose.holds_write hholds bytes
  refine ⟨_, hcopy, hkept, fun hres => ?_⟩
  obtain ⟨last, rfl⟩ := hfilled hres
  have haccounted := h.of_holds hkept
  have hfilled := hloose.write hsize
  have hdata := Store.write_data_self (s.store.withNode n b ((w.taken s).length + 1))
    ((s.store.withNode n b ((w.taken s).length + 1)).kbuf n) (w.taken s ++ [last])
  exact ⟨_, haccounted.append_eq hfilled hdata (by omega),
    haccounted.append hfilled hdata (List.length_pos_iff.mp hpos) hlimit, rfl⟩

/-- A write stores what it has taken. -/
def Write.Stores (w : Write) (s : ProcHead) : Prop :=
  w.Reaches s ∧ w.fate.residue (w.taken s).length = 0

/-- The three ways a write ends: it changes nothing, its copy fails, or it stores what it has
taken. -/
theorem usrProcWrite_ends (h : s.Accounted items) (w : Write) :
    (¬ w.Reaches s ∧ ∃ ret store, usrProcWrite s w = some ⟨ret, ⟨store, s.total⟩, []⟩ ∧
      Store.Same s.store store ∧ (ret < 0 ∨ ret = 0 ∧ w.buffer = []) ∧
      (w.buffer ≠ [] → s.total = USER_LIMITS → ret = -enomem ∧ store = s.store)) ∨
    (w.Reaches s ∧ w.fate.residue (w.taken s).length ≠ 0 ∧
      ∃ store, usrProcWrite s w =
          some ⟨(w.fate.residue (w.taken s).length : Nat), ⟨store, s.total⟩, []⟩ ∧
        store.Holds items) ∨
    (w.Reaches s ∧ w.fate.residue (w.taken s).length = 0 ∧
      ∃ n s', usrProcWrite s w = some ⟨(w.taken s).length, s', [w.taken s]⟩ ∧
        s'.Accounted (items ++ [⟨n, w.taken s⟩]) ∧ s'.total = s.total + (w.taken s).length) := by
  unfold usrProcWrite
  rcases h.testCount_cases w.buffer.length with
    ⟨hcount, htested⟩ | ⟨hcount, hfull, htested⟩ | ⟨hcount, hroom, htested⟩
  · have hnil := List.length_eq_zero_iff.mp hcount
    rw [htested]
    exact Or.inl ⟨fun hw => hw.1 hnil, 0, s.store, rfl, .refl s.store, Or.inr ⟨rfl, hnil⟩,
      fun hne => absurd hnil hne⟩
  · rw [htested]
    exact Or.inl ⟨fun hw => absurd hfull (Nat.ne_of_lt hw.2.1), -enomem, s.store, rfl,
      .refl s.store, Or.inl (by decide), fun _ _ => ⟨rfl, rfl⟩⟩
  · rw [htested]
    have hbuffer := List.length_pos_iff.mp hcount
    rcases s.store.newNode_cases (sizeAdd (min w.buffer.length (USER_LIMITS - s.total)) 1)
      w.choices with ⟨hfail, store, hnew, hsame⟩ | ⟨halloc, n, b, hn, hb, hbn, hnew⟩
    · simp only [hnew]
      exact Or.inl ⟨fun hw => hfail hw.2.2, -enomem, store, rfl, hsame, Or.inl (by decide),
        fun _ hfull => absurd hfull (Nat.ne_of_lt hroom)⟩
    · have hw : w.Reaches s := ⟨hbuffer, hroom, halloc⟩
      obtain ⟨hlen, -, hlimit⟩ := taken_length hw
      have hadd : sizeAdd (min w.buffer.length (USER_LIMITS - s.total)) 1 =
          (w.taken s).length + 1 := by
        rw [← hlen]
        exact sizeAdd_one (by omega)
      obtain ⟨copied, hcopy, hkept, happend⟩ := copy_ends h hw hn hb hbn rfl
      rw [← hadd] at hcopy
      have htaken : w.buffer.take (min w.buffer.length (USER_LIMITS - s.total)) = w.taken s := rfl
      simp only [hnew, htaken, hcopy, Option.bind_some]
      by_cases hres : w.fate.residue (w.taken s).length = 0
      · obtain ⟨s', happended, haccounted, htotal⟩ := happend hres
        rw [hlen] at happended
        refine Or.inr (Or.inr ⟨hw, hres, n, s', ?_, haccounted, htotal⟩)
        rw [if_neg (not_not.mpr hres), happended, hlen]
        rfl
      · exact Or.inr (Or.inl ⟨hw, hres, copied, if_pos hres, hkept⟩)

/-- The driver is in order, and its list is what the writes have stored. -/
def Session.Sound (s : Session) (head : ProcHead) (items : List Item) : Prop :=
  s.head = some head ∧ head.Accounted items ∧ items.map Item.text = s.accepted

/-- What a write does to the list: it appends what it has taken, or nothing. -/
theorem step_cases {s : Session} {head : ProcHead} {items : List Item}
    (h : s.Sound head items) (w : Write) :
    (¬ w.Stores head ∧ ∃ head', (s.step w).Sound head' items ∧ head'.total = head.total ∧
      (s.step w).accepted = s.accepted) ∨
    (w.Stores head ∧ ∃ head' n, (s.step w).Sound head' (items ++ [⟨n, w.taken head⟩]) ∧
      head'.total = head.total + (w.taken head).length ∧
      (s.step w).accepted = s.accepted ++ [w.taken head]) := by
  obtain ⟨hhead, haccounted, htexts⟩ := h
  unfold Session.step
  rw [hhead, Option.bind_some]
  rcases usrProcWrite_ends haccounted w with
    ⟨hw, ret, store, hwrite, hsame, -⟩ | ⟨-, hres, store, hwrite, hholds⟩ |
      ⟨hw, hres, n, head', hwrite, haccounted', htotal⟩
  · rw [hwrite]
    have hkept := List.append_nil s.accepted
    exact Or.inl ⟨fun hstores => hw hstores.1, ⟨store, head.total⟩,
      ⟨rfl, haccounted.of_same hsame, htexts.trans hkept.symm⟩, rfl, hkept⟩
  · rw [hwrite]
    have hkept := List.append_nil s.accepted
    exact Or.inl ⟨fun hstores => hres hstores.2, ⟨store, head.total⟩,
      ⟨rfl, haccounted.of_holds hholds, htexts.trans hkept.symm⟩, rfl, hkept⟩
  · rw [hwrite]
    exact Or.inr ⟨⟨hw, hres⟩, head', n, ⟨rfl, haccounted', by simpa using htexts⟩, htotal, rfl⟩

theorem init_sound (links : Links Ptr) (kbuf : Addr → Addr) (data : Addr → List Byte) :
    (writes links kbuf data).init.Sound ⟨.init links kbuf data, 0⟩ [] :=
  ⟨rfl, ⟨Store.init_holds links kbuf data, rfl, Nat.zero_le _, nofun⟩, rfl⟩

theorem step_sound {s : Session} (h : ∃ head items, s.Sound head items) (w : Write) :
    ∃ head items, (s.step w).Sound head items := by
  obtain ⟨head, items, hsound⟩ := h
  rcases step_cases hsound w with ⟨-, head', hsound', -⟩ | ⟨-, head', n, hsound', -⟩
  · exact ⟨head', _, hsound'⟩
  · exact ⟨head', _, hsound'⟩

theorem run_sound (links : Links Ptr) (kbuf : Addr → Addr) (data : Addr → List Byte)
    (history : List Write) :
    ∃ head items, ((writes links kbuf data).run history).Sound head items :=
  (writes links kbuf data).run_invariant (I := fun s => ∃ head items, s.Sound head items)
    ⟨_, _, init_sound links kbuf data⟩ (fun _ w h => step_sound h w) history

section Truth

/-- A write tells the truth: it returns a positive number exactly when it has appended a node
with so many of the user's bytes, and otherwise it has changed nothing and keeps nothing. -/
structure Truthful (s : ProcHead) (items : List Item) (w : Write) (o : Outcome) : Prop where
  appended : 0 < o.ret ↔
    ∃ n, o.head.store.Holds (items ++ [⟨n, w.buffer.take o.ret.toNat⟩]) ∧
      (o.head.total : Int) = s.total + o.ret
  failed : ¬ 0 < o.ret → (o.ret < 0 ∨ o.ret = 0 ∧ w.buffer = []) ∧
    Store.Same s.store o.head.store ∧ o.head.total = s.total

/-- A write that gets as far as its copy copies all that it has taken. -/
def Write.Copies (w : Write) (s : ProcHead) : Prop :=
  w.Reaches s → w.fate.residue (w.taken s).length = 0

theorem not_holds_longer {store store' : Store} (h : store.Holds items)
    (hlinks : store'.links = store.links) (i : Item) : ¬ store'.Holds (items ++ [i]) := by
  intro hlonger
  have hring := hlonger.ring
  rw [hlinks] at hring
  have hlen := congrArg List.length (h.ring.unique hring)
  simp at hlen

theorem truthful_iff_copies (h : s.Accounted items) (w : Write) :
    ∃ o, usrProcWrite s w = some o ∧ (Truthful s items w o ↔ w.Copies s) := by
  rcases usrProcWrite_ends h w with
    ⟨hw, ret, store, hwrite, hsame, hret, -⟩ | ⟨hw, hres, store, hwrite, hholds⟩ |
      ⟨hw, hres, n, s', hwrite, haccounted, htotal⟩
  · refine ⟨_, hwrite, iff_of_true ⟨?_, ?_⟩ fun hreach => absurd hreach hw⟩
    · have hneg : ¬ 0 < ret := by omega
      refine iff_of_false hneg ?_
      intro happended
      obtain ⟨n, hlonger, -⟩ := happended
      exact not_holds_longer h.holds hsame.links _ hlonger
    · intro _
      exact ⟨hret, hsame, rfl⟩
  · -- what is returned is positive, and nothing has been appended
    refine ⟨_, hwrite, iff_of_false ?_ fun hcopies => hres (hcopies hw)⟩
    intro htrue
    have hpos : (0 : Int) < (w.fate.residue (w.taken s).length : Nat) := by omega
    obtain ⟨n, -, htotal⟩ := htrue.appended.mp hpos
    simp only at htotal
    omega
  · obtain ⟨hlen, hpos, -⟩ := taken_length hw
    refine ⟨_, hwrite, iff_of_true ⟨?_, ?_⟩ fun _ => hres⟩
    · have hret : (0 : Int) < ((w.taken s).length : Nat) := by omega
      refine iff_of_true hret ⟨n, ?_, by simp [htotal]⟩
      have htake : w.buffer.take (w.taken s).length = w.taken s := by
        rw [hlen]
        rfl
      simpa [htake] using haccounted.holds
    · intro hneg
      simp only at hneg
      omega

/-- In every state that writes lead to, a write tells the truth if and only if it copies all
that it has taken in case it gets as far as its copy. -/
theorem usrProcWrite_truthful_iff (links : Links Ptr) (kbuf : Addr → Addr)
    (data : Addr → List Byte) (history : List Write) (w : Write) :
    ∃ s items, ((writes links kbuf data).run history).head = some s ∧ s.Accounted items ∧
      ∃ o, usrProcWrite s w = some o ∧ (Truthful s items w o ↔ w.Copies s) := by
  obtain ⟨s, items, hhead, haccounted, -⟩ := run_sound links kbuf data history
  exact ⟨s, items, hhead, haccounted, truthful_iff_copies haccounted w⟩

/-- The driver right after `demo_init`, in a memory of empty buffers. -/
def unused : ProcHead := ⟨.init ⟨id, id⟩ id fun _ => [], 0⟩

theorem unused_accounted : unused.Accounted [] :=
  ⟨Store.init_holds _ _ _, rfl, Nat.zero_le _, nofun⟩

/-- Of two bytes the second is not copied. -/
def halfCopied (node kbuf : Addr) : Write := ⟨[1, 2], ⟨some node, some kbuf⟩, ⟨1, fun _ => 0⟩⟩

/-- One byte left uncopied passes for one byte written. -/
theorem usrProcWrite_untruthful :
    ¬ ∃ o, usrProcWrite unused (halfCopied ⟨0, by decide⟩ ⟨1, by decide⟩) = some o ∧
      Truthful unused [] (halfCopied ⟨0, by decide⟩ ⟨1, by decide⟩) o := by
  intro h
  obtain ⟨o, hwrite, htrue⟩ := h
  obtain ⟨o', hwrite', hiff⟩ :=
    truthful_iff_copies unused_accounted (halfCopied ⟨0, by decide⟩ ⟨1, by decide⟩)
  obtain rfl := Option.some.inj (hwrite.symm.trans hwrite')
  have hres := hiff.mp htrue ⟨by decide, by decide, ⟨0, by decide⟩, ⟨1, by decide⟩, by decide,
    by decide⟩
  exact absurd hres (by decide)

end Truth

section Quota

/-- The accounting of `total`, in terms of the sizes of the buffers. -/
structure ProcHead.Balanced (s : ProcHead) (items : List Item) : Prop where
  holds : s.store.Holds items
  limit : s.total ≤ USER_LIMITS
  total : s.total = s.store.stored items
  size : ∀ i ∈ items, 2 ≤ s.store.size i
  ended : ∀ i ∈ items, (s.store.data (s.store.kbuf i.node)).getLast? = some 0
  left : (sizeSub USER_LIMITS s.total : Int) = USER_LIMITS - s.total

theorem ProcHead.Accounted.balanced (h : s.Accounted items) : s.Balanced items where
  holds := h.holds
  limit := h.limit
  total := by
    rw [h.total]
    exact (h.holds.stored_eq (List.Subset.refl items)).symm
  size i hi := by
    have hpos := List.length_pos_iff.mpr (h.text i hi)
    rw [h.holds.size hi]
    omega
  ended i hi := by
    rw [h.holds.text i hi]
    exact List.getLast?_concat
  left := by
    have hlimit := h.limit
    rw [h.left]
    omega

/-- A write that gets through accepts what is left of the limit, and a node with these bytes
and `total` are the richer for it; one that does not leaves the list and `total` as they are; and
at the limit none gets through. -/
structure Limited (s : ProcHead) (items : List Item) (w : Write) (o : Outcome) : Prop where
  accepts : w.Stores s →
    o.ret = (min w.buffer.length (USER_LIMITS - s.total) : Nat) ∧ 1 ≤ o.ret ∧
      o.stored = [w.taken s] ∧
      o.head.total = s.total + min w.buffer.length (USER_LIMITS - s.total) ∧
      ∃ n, o.head.store.Holds (items ++ [⟨n, w.taken s⟩])
  refused : ¬ w.Stores s →
    o.stored = [] ∧ o.head.store.Holds items ∧ o.head.total = s.total
  full : s.total = USER_LIMITS → w.buffer ≠ [] → o = ⟨-enomem, s, []⟩

theorem usrProcWrite_limited (h : s.Accounted items) (w : Write) :
    ∃ o, usrProcWrite s w = some o ∧ Limited s items w o := by
  rcases usrProcWrite_ends h w with
    ⟨hw, ret, store, hwrite, hsame, -, hfull⟩ | ⟨hw, hres, store, hwrite, hholds⟩ |
      ⟨hw, hres, n, s', hwrite, haccounted, htotal⟩
  · refine ⟨_, hwrite, fun hstores => absurd hstores.1 hw,
      fun _ => ⟨rfl, (h.of_same hsame).holds, rfl⟩, fun hlimit hbuffer => ?_⟩
    obtain ⟨rfl, rfl⟩ := hfull hbuffer hlimit
    rfl
  · refine ⟨_, hwrite, fun hstores => absurd hstores.2 hres, fun _ => ⟨rfl, hholds, rfl⟩,
      fun hlimit => ?_⟩
    exact absurd hlimit (Nat.ne_of_lt hw.2.1)
  · obtain ⟨hlen, hpos, -⟩ := taken_length hw
    refine ⟨_, hwrite, fun _ => ?_, fun hstores => absurd ⟨hw, hres⟩ hstores,
      fun hlimit => absurd hlimit (Nat.ne_of_lt hw.2.1)⟩
    have hret : (1 : Int) ≤ (w.taken s).length := by omega
    rw [← hlen]
    exact ⟨rfl, hret, rfl, htotal, n, haccounted.holds⟩

/-- After any writes, one after another, `total` is within the limit and counts the bytes in
the buffers, and the next write takes what is left of the limit if its memory and its copy allow
it. -/
theorem quota_accounted (links : Links Ptr) (kbuf : Addr → Addr) (data : Addr → List Byte)
    (history : List Write) :
    ∃ s items, ((writes links kbuf data).run history).head = some s ∧ s.Balanced items ∧
      ∀ w, ∃ o, usrProcWrite s w = some o ∧ Limited s items w o := by
  obtain ⟨s, items, hhead, haccounted, -⟩ := run_sound links kbuf data history
  exact ⟨s, items, hhead, haccounted.balanced, fun w => usrProcWrite_limited haccounted w⟩

end Quota

end KernelDrivers.Procfs
