import KernelDrivers.Dlist.Writes
import KernelDrivers.Framework.CString

namespace KernelDrivers.Dlist

open Framework Kernel

/-- The memory of a record; a `size_t` is stored with its lowest byte first. -/
def Stu.memory (stu : Stu) : List Byte :=
  List.ofFn stu.name ++
    (List.range 4).map fun i => UInt8.ofNat (stu.old.toNat >>> (8 * i))

/-- The record of `argv[3]` and `argv[4]`: `stu` is cleared, `strncpy` copies up to 31 bytes, and
what `atoi` returns becomes a `size_t`. -/
def stuOf (name old : CStr) : Stu where
  name i := (CStr.strncpy name 31 ++ [0]).getD i 0
  old := UInt32.ofNat (CStr.atoi old.text % 4294967296).toNat

def zeroed : Stu := ⟨fun _ => 0, 0⟩

/-- How a run of the program ends; an error is the value returned by its call. -/
inductive Ending where
  | usage
  | stu (name : List Byte) (old : Nat)
  | nothing
  | done
  | perror (ret : Int)

/-- `./app /dev/kstu rd`, or with four words, of which the second one is not looked at. There is no
result when an access goes wrong. -/
def appMain (s : StuHead Stu) (argv : List CStr) (choice : Option Addr) :
    Option (StuHead Stu × Ending) :=
  match argv with
  | [_, _, word] => do
    let ret ← CStr.strcmp (ascii ['r', 'd'] ++ [0]) word.memory
    if ret ≠ 0 then return (s, .usage)
    let o ← kbufRead s sizeofStu 0
    if o.ret < 0 then return (o.dev, .perror o.ret)
    if o.ret ≠ sizeofStu then return (o.dev, .nothing)
    let stu ← o.out
    let name ← cString stu.memory
    return (o.dev, .stu name stu.old.toNat)
  | [_, _, _, name, old] => do
    let o ← kbufWrite s sizeofStu (stuOf name old) choice 0 zeroed
    return (o.dev, if o.ret ≠ sizeofStu then .perror o.ret else .done)
  | _ => some (s, .usage)

/-- One run of the program after another, each with what `kmalloc` finds for it; with each way a
run ends, whether there was memory. -/
def appSession : StuHead Stu → List (List CStr × Option Addr) →
    Option (StuHead Stu × List (Bool × Ending))
  | s, [] => some (s, [])
  | s, (argv, choice) :: runs => do
    let granted := (s.kmalloc choice).isSome
    let (s, exit) ← appMain s argv choice
    let (s, exits) ← appSession s runs
    return (s, (granted, exit) :: exits)

/-- The program is for a queue of people. -/
structure Person where
  name : List Byte
  old : Nat

/-- A name is kept up to its 31st byte, and an age modulo the size of `size_t`. -/
def person (name old : CStr) : Person :=
  ⟨name.text.take 31, (CStr.atoi old.text % 4294967296).toNat⟩

/-- One line; `granted` tells whether there is memory for one more. -/
def queueMain (q : List Person) (argv : List CStr) (granted : Bool) : List Person × Ending :=
  match argv with
  | [_, _, word] =>
    if word.text ≠ ascii ['r', 'd'] then (q, .usage)
    else
      match q with
      | [] => ([], .nothing)
      | p :: q => (q, .stu p.name p.old)
  | [_, _, _, name, old] =>
    if LIMIT_STU < q.length then (q, .perror (-eagain))
    else if granted then (q ++ [person name old], .done)
    else (q, .perror (-enomem))
  | _ => (q, .usage)

def queueSession : List Person → List (List CStr × Bool) → List Person × List Ending
  | q, [] => (q, [])
  | q, (argv, granted) :: runs =>
    let (q, exit) := queueMain q argv granted
    let (q, exits) := queueSession q runs
    (q, exit :: exits)

/-- The person a run has entered, and the one it has shown. -/
def entered (argv : List CStr) (exit : Ending) : List Person :=
  match argv, exit with
  | [_, _, _, name, old], .done => [person name old]
  | _, _ => []

def showed : Ending → List Person
  | .stu name old => [⟨name, old⟩]
  | _ => []

/-- The person that a record is about, as `printf` shows it. -/
def Stu.view (stu : Stu) : Option Person :=
  (cString stu.memory).map fun name => ⟨name, stu.old.toNat⟩

/-- The list of the driver holds the queue. -/
def Keeps (s : StuHead Stu) (q : List Person) : Prop :=
  ∃ nodes, s.Holds nodes ∧ nodes.map (fun n => (s.stu n).view) = q.map some

theorem ofFn_getD {l : List Byte} {n : Nat} (h : l.length = n) :
    (List.ofFn fun i : Fin n => l.getD i 0) = l := by
  apply List.ext_getElem
  · rw [List.length_ofFn, h]
  · intro i h1 h2
    rw [List.getElem_ofFn]
    simp [List.getD_eq_getElem?_getD, List.getElem?_eq_getElem h2]

/-- What has been entered is shown, however long the name and whatever the age. -/
theorem view_stuOf (name old : CStr) : (stuOf name old).view = some (person name old) := by
  have hlen : (CStr.strncpy name 31 ++ [0]).length = 32 := by
    rw [List.length_append, CStr.strncpy_length, List.length_singleton]
  have hname : List.ofFn (stuOf name old).name = CStr.strncpy name 31 ++ [0] := ofFn_getD hlen
  have hold : (stuOf name old).old.toNat = (CStr.atoi old.text % 4294967296).toNat := by
    apply UInt32.toNat_ofNat_of_lt'
    show (CStr.atoi old.text % 4294967296).toNat < 4294967296
    omega
  rw [Stu.view, Stu.memory, hname, hold, cString, if_pos (by simp), CStr.shown_strncpy]
  rfl

variable {s : StuHead Stu} {nodes : List Addr}

theorem kbufRead_nil (h : s.Holds []) : kbufRead s sizeofStu 0 = some ⟨0, none, s, false⟩ := by
  have hnum : s.num = 0 := h.num
  rw [kbufRead, if_neg (not_not.mpr rfl), if_pos hnum]

theorem rd_queue {q : List Person} (h : Keeps s q) (prog dev word : CStr) (choice : Option Addr)
    (granted : Bool) :
    ∃ s', appMain s [prog, dev, word] choice =
        some (s', (queueMain q [prog, dev, word] granted).2) ∧
      Keeps s' (queueMain q [prog, dev, word] granted).1 := by
  obtain ⟨nodes, hholds, hview⟩ := h
  have hrd : 0 ∉ ascii ['r', 'd'] := by decide
  obtain ⟨ret, hret, hiff⟩ := CStr.strcmp_literal hrd word
  by_cases hw : word.text = ascii ['r', 'd']
  case neg =>
    refine ⟨s, ?_, nodes, hholds, ?_⟩
    · simp [appMain, hret, mt hiff.mp hw, queueMain, hw]
    · simpa [queueMain, hw] using hview
  have hzero := hiff.mpr hw
  cases q with
  | nil =>
    obtain rfl : nodes = [] := List.map_eq_nil_iff.mp hview
    refine ⟨s, ?_, [], hholds, ?_⟩
    · have hsize : (0 : Int) ≠ sizeofStu := by decide
      simp [appMain, hret, hzero, kbufRead_nil hholds, queueMain, hw, hsize]
    · simp [queueMain, hw]
  | cons p q =>
    cases nodes with
    | nil => simp at hview
    | cons n nodes =>
      obtain ⟨hfirst, hrest⟩ := List.cons.inj hview
      obtain ⟨hread, hholds'⟩ := kbufRead_first hholds
      obtain ⟨name, hname, rfl⟩ := Option.map_eq_some_iff.mp hfirst
      refine ⟨s.unlinkFirst.kfree n, ?_, nodes, hholds', ?_⟩
      · have hpos : ¬ (sizeofStu : Int) < 0 := by decide
        simp [appMain, hret, hzero, hread, hname, queueMain, hw, hpos]
      · simpa [queueMain, hw, StuHead.kfree, StuHead.unlinkFirst] using hrest

theorem wr_queue {q : List Person} (h : Keeps s q) (prog dev wr name old : CStr)
    (choice : Option Addr) :
    ∃ s', appMain s [prog, dev, wr, name, old] choice = some (s',
        (queueMain q [prog, dev, wr, name, old] (s.kmalloc choice).isSome).2) ∧
      Keeps s' (queueMain q [prog, dev, wr, name, old] (s.kmalloc choice).isSome).1 := by
  obtain ⟨nodes, hholds, hview⟩ := h
  have hlen : s.num = q.length := by
    have hmap := congrArg List.length hview
    rw [List.length_map, List.length_map] at hmap
    rw [hholds.num, hmap]
  have hagain : (-eagain : Int) ≠ sizeofStu := by decide
  have hnomem : (-enomem : Int) ≠ sizeofStu := by decide
  rcases kbufWrite_ends hholds (stuOf name old) choice 0 zeroed with
    ⟨hfull, hwrite⟩ | ⟨hle, hnone, hwrite⟩ | ⟨n, hle, hsome, hfree, ⟨hleft, -⟩ | ⟨-, hwrite, hnew⟩⟩
  · rw [hlen] at hfull
    refine ⟨s, ?_, nodes, hholds, ?_⟩
    · simp [appMain, hwrite, queueMain, hfull, hagain]
    · simpa [queueMain, hfull] using hview
  · rw [hlen] at hle
    have hroom : ¬ LIMIT_STU < q.length := Nat.not_lt.mpr hle
    refine ⟨s, ?_, nodes, hholds, ?_⟩
    · simp [appMain, hwrite, queueMain, hroom, hnone, hnomem]
    · simpa [queueMain, hroom, hnone] using hview
  · exact absurd rfl hleft
  · rw [hlen] at hle
    have hroom : ¬ LIMIT_STU < q.length := Nat.not_lt.mpr hle
    refine ⟨_, ?_, nodes ++ [n], hnew, ?_⟩
    · simp [appMain, hwrite, queueMain, hroom, hsome]
    · have hsame := stored_of_free hholds hfree (stuOf name old)
      have hold : nodes.map (fun m => ((((s.allocate n).store n (stuOf name old)).append n).stu
          m).view) = q.map some := by
        rw [← hview]
        exact List.map_congr_left fun m hm => congrArg Stu.view (hsame m hm)
      have hlast : ((((s.allocate n).store n (stuOf name old)).append n).stu n).view =
          some (person name old) := by
        rw [← view_stuOf]
        exact congrArg Stu.view (StuHead.store_self _ n _)
      simp [queueMain, hroom, hsome, hold, hlast]

/-- A run of the program does to the list what its line does to the queue. -/
theorem appMain_queue {q : List Person} (h : Keeps s q) (argv : List CStr) (choice : Option Addr) :
    ∃ s', appMain s argv choice =
        some (s', (queueMain q argv (s.kmalloc choice).isSome).2) ∧
      Keeps s' (queueMain q argv (s.kmalloc choice).isSome).1 := by
  match argv with
  | [] | [_] | [_, _] | [_, _, _, _] | _ :: _ :: _ :: _ :: _ :: _ :: _ => exact ⟨s, rfl, h⟩
  | [prog, dev, word] => exact rd_queue h prog dev word choice _
  | [prog, dev, wr, name, old] => exact wr_queue h prog dev wr name old choice

theorem appSession_queue {q : List Person} (h : Keeps s q)
    (runs : List (List CStr × Option Addr)) :
    ∃ s' exits, appSession s runs = some (s', exits) ∧ exits.length = runs.length ∧
      exits.map Prod.snd =
        (queueSession q ((runs.map Prod.fst).zip (exits.map Prod.fst))).2 ∧
      Keeps s' (queueSession q ((runs.map Prod.fst).zip (exits.map Prod.fst))).1 := by
  induction runs generalizing s q with
  | nil => exact ⟨s, [], rfl, rfl, rfl, h⟩
  | cons run runs ih =>
    obtain ⟨s₁, hmain, h₁⟩ := appMain_queue h run.1 run.2
    obtain ⟨s₂, exits, hrest, hlen, hexits, h₂⟩ := ih h₁
    refine ⟨s₂, ((s.kmalloc run.2).isSome, (queueMain q run.1 (s.kmalloc run.2).isSome).2) :: exits,
      ?_, congrArg Nat.succ hlen, ?_, h₂⟩
    · simp only [appSession, hmain, Option.bind_eq_bind, Option.bind_some, hrest, Option.pure_def]
    · simp only [List.map_cons, List.zip_cons_cons, queueSession, hexits]

/-- In one line of the queue, what is entered comes behind what is shown. -/
theorem queueMain_account (q : List Person) (argv : List CStr) (granted : Bool) :
    showed (queueMain q argv granted).2 ++ (queueMain q argv granted).1 =
        q ++ entered argv (queueMain q argv granted).2 ∧
      (q.length ≤ LIMIT_STU + 1 → (queueMain q argv granted).1.length ≤ LIMIT_STU + 1) := by
  match argv with
  | [] | [_] | [_, _] | [_, _, _, _] | _ :: _ :: _ :: _ :: _ :: _ :: _ =>
    exact ⟨(List.append_nil q).symm, id⟩
  | [prog, dev, word] =>
    by_cases hw : word.text = ascii ['r', 'd']
    · cases q with
      | nil => simp [queueMain, hw, showed, entered]
      | cons p q =>
        refine ⟨by simp [queueMain, hw, showed, entered], ?_⟩
        intro hle
        simp only [queueMain, hw, ne_eq, not_true_eq_false, if_false, List.length_cons] at hle ⊢
        omega
    · simp [queueMain, hw, showed, entered]
  | [prog, dev, wr, name, old] =>
    by_cases hfull : LIMIT_STU < q.length
    · simp [queueMain, hfull, showed, entered]
    · cases granted with
      | false => simp [queueMain, hfull, showed, entered]
      | true =>
        refine ⟨by simp [queueMain, hfull, showed, entered], ?_⟩
        intro _
        simp only [queueMain, hfull, if_false, if_true, List.length_append, List.length_singleton]
        omega

theorem queueSession_account (q : List Person) (runs : List (List CStr × Bool)) :
    (queueSession q runs).2.flatMap showed ++ (queueSession q runs).1 =
        q ++ (List.zipWith entered (runs.map Prod.fst) (queueSession q runs).2).flatten ∧
      (q.length ≤ LIMIT_STU + 1 → (queueSession q runs).1.length ≤ LIMIT_STU + 1) := by
  induction runs generalizing q with
  | nil => exact ⟨(List.append_nil q).symm, id⟩
  | cons run runs ih =>
    obtain ⟨hmain, hroom⟩ := queueMain_account q run.1 run.2
    obtain ⟨hrest, hroom'⟩ := ih (queueMain q run.1 run.2).1
    refine ⟨?_, fun hle => hroom' (hroom hle)⟩
    simp only [queueSession, List.flatMap_cons, List.map_cons, List.zipWith_cons_cons,
      List.flatten_cons]
    rw [List.append_assoc, hrest, ← List.append_assoc, hmain, List.append_assoc]

/-- Any session of command lines on the driver, with memory granted or not at each of them: no
access goes wrong, every run ends as the queue of people says, and the people shown, followed by
those still in the list, are the people entered, in this order and with the names and ages that
they were entered with. -/
theorem people_shown_in_order (links : Links Ptr) (stu : Addr → Stu)
    (runs : List (List CStr × Option Addr)) :
    ∃ s exits q, appSession (.init links stu) runs = some (s, exits) ∧
      exits.length = runs.length ∧
      queueSession [] ((runs.map Prod.fst).zip (exits.map Prod.fst)) =
        (q, exits.map Prod.snd) ∧
      Keeps s q ∧ q.length ≤ LIMIT_STU + 1 ∧
      (exits.map Prod.snd).flatMap showed ++ q =
        (List.zipWith entered (runs.map Prod.fst) (exits.map Prod.snd)).flatten := by
  have hstart : Keeps (.init links stu) [] := ⟨[], StuHead.init_holds links stu, rfl⟩
  obtain ⟨s, exits, hrun, hlen, hexits, hkeeps⟩ := appSession_queue hstart runs
  obtain ⟨haccount, hroom⟩ :=
    queueSession_account [] ((runs.map Prod.fst).zip (exits.map Prod.fst))
  have hlines : ((runs.map Prod.fst).zip (exits.map Prod.fst)).map Prod.fst =
      runs.map Prod.fst := by
    apply List.map_fst_zip
    rw [List.length_map, List.length_map, hlen]
  rw [hlines, ← hexits, List.nil_append] at haccount
  exact ⟨s, exits, _, hrun, hlen, Prod.ext rfl hexits.symm, hkeeps, hroom (Nat.zero_le _), haccount⟩

end KernelDrivers.Dlist
