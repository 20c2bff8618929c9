import KernelDrivers.Framework.TextPage
import KernelDrivers.Procfs.Demo
import KernelDrivers.Procfs.Proc

namespace KernelDrivers.Procfs

open Framework Kernel

def PAGE_SIZE : Nat := 4096

/-- The line that `usr_proc_read` begins with. -/
def header (total : Nat) : List Byte :=
  ascii "------------------------ total ".toList ++ ascii (Nat.toDigits 10 total) ++
    ascii " Bytes -------------------------\n\n".toList

def newline : List Byte := ascii ['\n']

/-- `len += sprintf(page + len, "%s", pos->kbuf)`. There is no outcome when memory is read that
is not allocated. -/
def printItem (s : Store) (page : Page) : Ptr → Option Page
  | .head => none
  | .node pos =>
    if s.live pos ∧ s.live (s.kbuf pos) then (cString (s.data (s.kbuf pos))).map page.sprintf
    else none

/-- The loop of both read handlers over the list. -/
def printList (s : Store) (page : Page) : Option Page :=
  s.links.forEach .head (printItem s) (SIZE_MAX + 1) (s.links.next .head) page

/-- `usr_proc_read` of `procfs`: the page, whose `len` is what it returns. -/
def usrProcRead (s : ProcHead) : Option Page :=
  (printList s.store (Page.empty.sprintf (header s.total))).map fun page => page.sprintf newline

/-- `demo_read` of `kernel_code_v1/proc`. -/
def Proc.demoRead (s : Store) : Option Page := printList s .empty

variable {s : Store} {items : List Item}

theorem printItem_holds (h : s.Holds items) {i : Item} (hi : i ∈ items) (page : Page) :
    printItem s page (.node i.node) = some (page.sprintf (shown i.text)) := by
  have hnode := h.live i.node (s.node_mem_blocks hi)
  have hkbuf := h.live (s.kbuf i.node) (s.kbuf_mem_blocks hi)
  rw [printItem, if_pos ⟨hnode, hkbuf⟩, h.text i hi, cString_concat]
  rfl

/-- The loop prints the texts of the items, each up to its first NUL. -/
theorem printList_holds (h : s.Holds items) (page : Page) :
    printList s page = some (((items.map Item.text).map shown).foldl Page.sprintf page) := by
  rw [printList, h.ring.forEach (printItem s) h.nodes_length_lt page]
  have hitems : ∀ i ∈ items, ∀ page, printItem s page (.node i.node) =
      some (page.sprintf (shown i.text)) := fun i hi page => printItem_holds h hi page
  clear h
  induction items generalizing page with
  | nil => rfl
  | cons i items ih =>
    rw [List.map_cons, List.foldlM_cons, hitems i List.mem_cons_self page]
    exact ih (page.sprintf (shown i.text)) fun j hj => hitems j (List.mem_cons_of_mem i hj)

theorem usrProcRead_eq {s : ProcHead} (h : s.store.Holds items) :
    usrProcRead s = some ((header s.total :: (items.map Item.text).map shown ++ [newline]).foldl
      Page.sprintf .empty) := by
  rw [usrProcRead, printList_holds h, List.foldl_append]
  rfl

/-- What `usr_proc_read` puts on its page, and how many bytes it writes there. -/
theorem usrProcRead_page {s : ProcHead} (h : s.store.Holds items) :
    ∃ page, usrProcRead s = some page ∧
      page.text = header s.total ++ ((items.map Item.text).map shown).flatten ++ newline ∧
      page.written.length = (Nat.toDigits 10 s.total).length +
        ((items.map Item.text).map shown).flatten.length + 67 := by
  refine ⟨_, usrProcRead_eq h, ?_, ?_⟩
  · rw [Page.text_foldl]
    simp
  · rw [Page.written_foldl _ (by simp)]
    simp [header, newline]
    omega

theorem demoRead_page (h : s.Holds items) :
    ∃ page, Proc.demoRead s = some page ∧
      (page.written.length ≤ PAGE_SIZE ↔
        ((items.map Item.text).map shown).flatten.length + 1 ≤ PAGE_SIZE) := by
  refine ⟨_, printList_holds h .empty, ?_⟩
  cases items with
  | nil => exact iff_of_true (by decide) (by decide)
  | cons i items =>
    rw [Page.written_foldl _ (by simp)]
    simp [Nat.add_assoc]

section ReadBack

/-- A write that stores something stores no NUL. -/
def Session.NoNul (s : Session) (w : Write) : Prop :=
  ∀ head, s.head = some head → w.Stores head → 0 ∉ w.taken head

/-- What has been stored has no NUL in it exactly when no write has stored one. -/
theorem no_nul_iff (links : Links Ptr) (kbuf : Addr → Addr) (data : Addr → List Byte)
    (history : List Write) :
    0 ∉ ((writes links kbuf data).run history).accepted.flatten ↔
      (writes links kbuf data).Meets Session.NoNul history := by
  induction history using List.reverseRecOn with
  | nil => exact iff_of_true List.not_mem_nil trivial
  | append_singleton history w ih =>
    obtain ⟨head, items, hsound⟩ := run_sound links kbuf data history
    have hnoNul : ((writes links kbuf data).run history).NoNul w ↔
        (w.Stores head → 0 ∉ w.taken head) := by
      rw [Session.NoNul, hsound.1]
      simp only [Option.some.injEq, forall_eq']
    rw [Machine.meets_concat, Machine.run_concat, ← ih, hnoNul]
    show 0 ∉ (((writes links kbuf data).run history).step w).accepted.flatten ↔ _
    rcases step_cases hsound w with ⟨hw, head', -, -, hsame⟩ | ⟨hw, head', n, -, -, hmore⟩
    · rw [hsame]
      exact (and_iff_left fun hstores => absurd hstores hw).symm
    · rw [hmore, List.flatten_append, List.mem_append, not_or, List.flatten_singleton]
      exact and_congr_right fun _ => (imp_iff_right hw).symm

/-- What is read between the header and the last newline is what the writes have stored, and
its length is the total of the header, if and only if no write has stored a NUL. -/
theorem read_back_iff (links : Links Ptr) (kbuf : Addr → Addr) (data : Addr → List Byte)
    (history : List Write) :
    ∃ s page text, ((writes links kbuf data).run history).head = some s ∧
      usrProcRead s = some page ∧ page.text = header s.total ++ text ++ newline ∧
      ((text = ((writes links kbuf data).run history).accepted.flatten ∧
        text.length = s.total) ↔ (writes links kbuf data).Meets Session.NoNul history) := by
  obtain ⟨s, items, hhead, haccounted, htexts⟩ := run_sound links kbuf data history
  obtain ⟨page, hread, htext, -⟩ := usrProcRead_page haccounted.holds
  refine ⟨s, page, _, hhead, hread, htext, ?_⟩
  rw [← no_nul_iff, ← htexts, haccounted.total]
  constructor
  · intro h hmem
    have hlt := flatten_shown_length_lt hmem
    rw [h.2] at hlt
    exact absurd hlt (Nat.lt_irrefl _)
  · intro hnone
    have hshown := flatten_shown_of_no_nul hnone
    exact ⟨hshown, congrArg List.length hshown⟩

/-- Three bytes are written, the second of them a NUL. -/
def withNul (node kbuf : Addr) : Write := ⟨[65, 0, 66], ⟨some node, some kbuf⟩, .success⟩

/-- Three bytes are accepted, and one is read back below a header that says three. -/
theorem read_back_cut :
    let s := (writes ⟨id, id⟩ id fun _ => []).run [withNul ⟨0, by decide⟩ ⟨1, by decide⟩]
    s.accepted = [[65, 0, 66]] ∧ s.head.map ProcHead.total = some 3 ∧
      (s.head.bind usrProcRead).map Page.text = some (header 3 ++ [65] ++ newline) := by
  decide +kernel

end ReadBack

section InPage

/-- A read by `usr_proc_read` stays in its page. -/
def Session.ReadFits (s : Session) : Prop :=
  ∃ head page, s.head = some head ∧ usrProcRead head = some page ∧
    page.written.length ≤ PAGE_SIZE

/-- How many bytes a read writes: 67, the digits of `total`, and what is shown of the texts. -/
def needed (total : Nat) (texts : List (List Byte)) : Nat :=
  (Nat.toDigits 10 total).length + (texts.map shown).flatten.length + 67

/-- A write that stores something leaves the texts small enough for the page. -/
def Session.Fits (s : Session) (w : Write) : Prop :=
  ∀ head, s.head = some head → w.Stores head →
    needed (head.total + (w.taken head).length) (s.accepted ++ [w.taken head]) ≤ PAGE_SIZE

theorem readFits_iff {s : Session} {head : ProcHead} {items : List Item}
    (h : s.Sound head items) : s.ReadFits ↔ needed head.total s.accepted ≤ PAGE_SIZE := by
  obtain ⟨hhead, haccounted, htexts⟩ := h
  obtain ⟨page, hread, -, hlen⟩ := usrProcRead_page haccounted.holds
  rw [htexts] at hlen
  constructor
  · intro hfits
    obtain ⟨head', page', hhead', hread', hle⟩ := hfits
    obtain rfl := Option.some.inj (hhead'.symm.trans hhead)
    obtain rfl := Option.some.inj (hread'.symm.trans hread)
    exact hlen.symm.trans_le hle
  · intro hle
    exact ⟨head, page, hhead, hread, hlen.trans_le hle⟩

/-- A write that fits keeps the read in its page, and any other makes it leave the page. -/
theorem step_readFits {s : Session} (h : ∃ head items, s.Sound head items) (hfits : s.ReadFits)
    (w : Write) : (s.step w).ReadFits ↔ s.Fits w := by
  obtain ⟨head, items, hsound⟩ := h
  rw [Session.Fits, hsound.1]
  simp only [Option.some.injEq, forall_eq']
  rcases step_cases hsound w with
    ⟨hw, head', hsound', htotal, hsame⟩ | ⟨hw, head', n, hsound', htotal, hmore⟩
  · refine iff_of_true ?_ fun hstores => absurd hstores hw
    rw [readFits_iff hsound', htotal, hsame]
    exact (readFits_iff hsound).mp hfits
  · rw [readFits_iff hsound', htotal, hmore]
    exact (imp_iff_right hw).symm

theorem usrProcRead_fits_iff (links : Links Ptr) (kbuf : Addr → Addr) (data : Addr → List Byte)
    (history : List Write) :
    (∀ past, past <+: history → ((writes links kbuf data).run past).ReadFits) ↔
      (writes links kbuf data).Meets Session.Fits history := by
  have hinit := init_sound links kbuf data
  have hheader : needed 0 [] ≤ PAGE_SIZE := by decide
  have hfirst : (writes links kbuf data).init.ReadFits := (readFits_iff hinit).mpr hheader
  exact Machine.safe_iff_meets_of_invariant (J := fun s => ∃ head items, s.Sound head items)
    ⟨_, _, hinit⟩ hfirst (fun s w h => step_sound h w) (fun s w h hfits => step_readFits h hfits w)
    history

/-- A read by `demo_read` stays in its page. -/
def Proc.Session.ReadFits (s : Proc.Session) : Prop :=
  ∃ store page, s.store = some store ∧ Proc.demoRead store = some page ∧
    page.written.length ≤ PAGE_SIZE

/-- A write that stores something leaves the texts, and a NUL, small enough for the page. -/
def Proc.Session.Fits (s : Proc.Session) (w : Proc.Write) : Prop :=
  ∀ store, s.store = some store → w.Stores store →
    ((s.accepted ++ [w.buffer]).map shown).flatten.length + 1 ≤ PAGE_SIZE

theorem proc_readFits_iff {s : Proc.Session} {store : Store} {items : List Item}
    (h : s.Sound store items) :
    s.ReadFits ↔ (s.accepted.map shown).flatten.length + 1 ≤ PAGE_SIZE := by
  obtain ⟨hstore, hexact, htexts⟩ := h
  obtain ⟨page, hread, hlen⟩ := demoRead_page hexact.holds
  rw [← htexts, ← hlen]
  constructor
  · intro hfits
    obtain ⟨store', page', hstore', hread', hle⟩ := hfits
    obtain rfl := Option.some.inj (hstore'.symm.trans hstore)
    obtain rfl := Option.some.inj (hread'.symm.trans hread)
    exact hle
  · exact fun hle => ⟨store, page, hstore, hread, hle⟩

theorem proc_step_readFits {s : Proc.Session} (h : ∃ store items, s.Sound store items)
    (hfits : s.ReadFits) (w : Proc.Write) : (s.step w).ReadFits ↔ s.Fits w := by
  obtain ⟨store, items, hsound⟩ := h
  rw [Proc.Session.Fits, hsound.1]
  simp only [Option.some.injEq, forall_eq']
  rcases Proc.step_cases hsound w with
    ⟨hw, store', hsound', hsame⟩ | ⟨hw, store', n, hsound', hmore⟩
  · refine iff_of_true ?_ fun hstores => absurd hstores hw
    rw [proc_readFits_iff hsound', hsame]
    exact (proc_readFits_iff hsound).mp hfits
  · rw [proc_readFits_iff hsound', hmore]
    exact (imp_iff_right hw).symm

theorem demoRead_fits_iff (links : Links Ptr) (kbuf : Addr → Addr) (data : Addr → List Byte)
    (history : List Proc.Write) :
    (∀ past, past <+: history → ((Proc.writes links kbuf data).run past).ReadFits) ↔
      (Proc.writes links kbuf data).Meets Proc.Session.Fits history := by
  have hinit := Proc.init_sound links kbuf data
  have hempty : (([] : List (List Byte)).map shown).flatten.length + 1 ≤ PAGE_SIZE := by decide
  have hfirst : (Proc.writes links kbuf data).init.ReadFits :=
    (proc_readFits_iff hinit).mpr hempty
  exact Machine.safe_iff_meets_of_invariant (J := fun s => ∃ store items, s.Sound store items)
    ⟨_, _, hinit⟩ hfirst (fun s w h => Proc.step_sound h w)
    (fun s w h hfits => proc_step_readFits h hfits w) history

/-- The reads of both drivers stay in their page in all states that writes lead to if and only
if no write stores more than the page has room for: what is shown of all texts, and around
them the header with its digits, the newline and a NUL, or the NUL alone. -/
theorem read_in_page_iff (links : Links Ptr) (kbuf : Addr → Addr) (data : Addr → List Byte) :
    (∀ history : List Write,
      (∀ past, past <+: history → ((writes links kbuf data).run past).ReadFits) ↔
        (writes links kbuf data).Meets Session.Fits history) ∧
    ∀ history : List Proc.Write,
      (∀ past, past <+: history → ((Proc.writes links kbuf data).run past).ReadFits) ↔
        (Proc.writes links kbuf data).Meets Proc.Session.Fits history :=
  ⟨usrProcRead_fits_iff links kbuf data, demoRead_fits_iff links kbuf data⟩

/-- A page of letters. -/
def letters : List Byte := List.replicate PAGE_SIZE 97

theorem letters_length : letters.length = PAGE_SIZE := List.length_replicate

theorem shown_letters : ([letters].map shown).flatten.length = PAGE_SIZE := by
  have hnone : 0 ∉ letters := fun h => absurd (List.eq_of_mem_replicate h) (by decide)
  rw [List.map_singleton, List.flatten_singleton, shown_of_no_nul hnone, letters_length]

def longWrite (node kbuf : Addr) : Write := ⟨letters, ⟨some node, some kbuf⟩, .success⟩

def Proc.longWrite (node kbuf : Addr) : Proc.Write where
  buffer := letters
  fits := by
    rw [letters_length]
    decide
  choices := ⟨some node, some kbuf⟩
  fate := .success

theorem longWrite_stores (node kbuf : Addr) (h : kbuf ≠ node) :
    (longWrite node kbuf).Stores unused ∧ (longWrite node kbuf).taken unused = letters := by
  have hbuffer : letters ≠ [] := by
    apply List.ne_nil_of_length_pos
    rw [letters_length]
    decide
  have halloc : unused.store.Allocates ⟨some node, some kbuf⟩ := by
    refine ⟨node, kbuf, rfl, ?_⟩
    simp [Store.kzalloc, Store.allocate_live_of_ne h]
    rfl
  refine ⟨⟨⟨hbuffer, by decide, halloc⟩, Nat.zero_min _⟩, ?_⟩
  show letters.take (min letters.length (USER_LIMITS - 0)) = letters
  rw [letters_length]
  exact List.take_of_length_le (by rw [letters_length]; decide)

/-- A page of letters in one write does not fit into the page with what is around it. -/
theorem read_leaves_page :
    (¬ ∀ past, past <+: [longWrite ⟨0, by decide⟩ ⟨1, by decide⟩] →
      ((writes ⟨id, id⟩ id fun _ => []).run past).ReadFits) ∧
    ¬ ∀ past, past <+: [Proc.longWrite ⟨0, by decide⟩ ⟨1, by decide⟩] →
      ((Proc.writes ⟨id, id⟩ id fun _ => []).run past).ReadFits := by
  constructor
  · rw [usrProcRead_fits_iff]
    intro hm
    obtain ⟨hstores, htaken⟩ := longWrite_stores ⟨0, by decide⟩ ⟨1, by decide⟩ (by decide)
    have hfits := hm.1 unused rfl hstores
    rw [htaken] at hfits
    have hlong : PAGE_SIZE < needed (unused.total + letters.length) [letters] := by
      rw [needed, shown_letters]
      omega
    exact absurd hfits (Nat.not_le_of_lt hlong)
  · rw [demoRead_fits_iff]
    intro hm
    have hfits := hm.1 unused.store rfl
      ⟨⟨⟨0, by decide⟩, ⟨1, by decide⟩, by decide, by decide⟩, Nat.zero_min _⟩
    have hlong : PAGE_SIZE < ([letters].map shown).flatten.length + 1 := by
      rw [shown_letters]
      omega
    exact absurd hfits (Nat.not_le_of_lt hlong)

end InPage

end KernelDrivers.Procfs
