import KernelDrivers.Framework.TextPage

namespace KernelDrivers.Framework

/-- The memory from a pointer to a NUL-terminated string on. -/
structure CStr where
  memory : List UInt8
  ends : 0 ∈ memory

namespace CStr

/-- The bytes of the string without its NUL. -/
def text (s : CStr) : List UInt8 := shown s.memory

/-- `strlen`. There is no outcome when the memory ends before a NUL. -/
def strlen : List UInt8 → Option Nat
  | [] => none
  | c :: cs => if c = 0 then some 0 else (strlen cs).map (· + 1)

/-- `strncmp`, which compares no byte after a NUL. There is no outcome when it reads beyond the end
of the memory. -/
def strncmp : List UInt8 → List UInt8 → Nat → Option Int
  | _, _, 0 => some 0
  | c1 :: cs, c2 :: ct, count + 1 =>
    if c1 ≠ c2 then some (if c1 < c2 then -1 else 1)
    else if c1 = 0 then some 0
    else strncmp cs ct count
  | _, _, _ + 1 => none

/-- `strcmp`, with no outcome when it reads beyond the end of the memory. -/
def strcmp : List UInt8 → List UInt8 → Option Int
  | c1 :: cs, c2 :: ct =>
    if c1 ≠ c2 then some (if c1 < c2 then -1 else 1)
    else if c1 = 0 then some 0
    else strcmp cs ct
  | _, _ => none

/-- What `strncpy` puts at its destination: the bytes of the string, then NULs up to `n`. -/
def strncpy (src : CStr) (n : Nat) : List UInt8 :=
  src.text.take n ++ List.replicate (n - src.text.length) 0

def isspace (c : UInt8) : Bool := c == 32 || (9 ≤ c && c ≤ 13)

def isdigit (c : UInt8) : Bool := 48 ≤ c && c ≤ 57

def decimal (digits : List UInt8) : Nat :=
  digits.foldl (fun n digit => 10 * n + (digit.toNat - 48)) 0

/-- `atoi` on the bytes of a string. What is beyond the range of an `int` becomes its nearest
value. -/
def atoi (text : List UInt8) : Int :=
  let nptr := text.dropWhile isspace
  let signed := nptr.head? == some 45 || nptr.head? == some 43
  let n := decimal ((if signed then nptr.tail else nptr).takeWhile isdigit)
  if nptr.head? == some 45 then max (-(n : Int)) (-2147483648) else min n 2147483647

theorem atoi_range (text : List UInt8) : -2147483648 ≤ atoi text ∧ atoi text ≤ 2147483647 := by
  simp only [atoi]
  split <;> omega

theorem shown_nul (cs : List UInt8) : shown (0 :: cs) = [] := rfl

theorem shown_cons {c : UInt8} (hc : c ≠ 0) (cs : List UInt8) :
    shown (c :: cs) = c :: shown cs := by
  simp [shown, hc]

/-- What follows the NUL is not shown. -/
theorem shown_terminated (bytes rest : List UInt8) :
    shown (bytes ++ [0] ++ rest) = shown bytes := by
  induction bytes with
  | nil => rfl
  | cons b bytes ih =>
    by_cases hb : b = 0
    · subst hb
      rfl
    · simp only [List.cons_append, shown_cons hb, ih]

/-- Behind a byte that is not the NUL comes the NUL. -/
theorem ends_cons {c : UInt8} {cs : List UInt8} (hc : c ≠ 0) (h : 0 ∈ c :: cs) : 0 ∈ cs := by
  rcases List.mem_cons.mp h with heq | hmem
  · exact absurd heq.symm hc
  · exact hmem

theorem strlen_eq {cs : List UInt8} (h : 0 ∈ cs) : strlen cs = some (shown cs).length := by
  induction cs with
  | nil => exact absurd h List.not_mem_nil
  | cons c cs ih =>
    by_cases hc : c = 0
    · subst hc
      rfl
    · rw [strlen, if_neg hc, ih (ends_cons hc h), shown_cons hc]
      rfl

/-- A comparison that is bounded by the length of the first string tells whether it is a prefix of
the second. -/
theorem strncmp_prefix {cs ct : List UInt8} (hs : 0 ∈ cs) (ht : 0 ∈ ct) :
    ∃ r, strncmp cs ct (shown cs).length = some r ∧ (r = 0 ↔ shown cs <+: shown ct) := by
  induction cs generalizing ct with
  | nil => exact absurd hs List.not_mem_nil
  | cons c cs ih =>
    by_cases hc : c = 0
    · subst hc
      refine ⟨0, ?_, iff_of_true rfl (List.nil_prefix)⟩
      rw [shown_nul, List.length_nil, strncmp]
    · cases ct with
      | nil => exact absurd ht List.not_mem_nil
      | cons d ct =>
        rw [shown_cons hc, List.length_cons, strncmp]
        by_cases hd : c = d
        · subst hd
          obtain ⟨r, hr, hiff⟩ := ih (ends_cons hc hs) (ends_cons hc ht)
          refine ⟨r, ?_, ?_⟩
          · rw [if_neg (not_not.mpr rfl), if_neg hc, hr]
          · rw [hiff, shown_cons hc, List.prefix_cons_inj]
        · -- the strings differ here, or the second one has ended
          refine ⟨_, if_pos hd, iff_of_false ?_ ?_⟩
          · split <;> decide
          · intro hprefix
            by_cases hd0 : d = 0
            · subst hd0
              exact absurd (List.prefix_nil.mp hprefix) (List.cons_ne_nil _ _)
            · rw [shown_cons hd0, List.cons_prefix_cons] at hprefix
              exact hd hprefix.1

theorem strcmp_eq {cs ct : List UInt8} (hs : 0 ∈ cs) (ht : 0 ∈ ct) :
    ∃ r, strcmp cs ct = some r ∧ (r = 0 ↔ shown cs = shown ct) := by
  induction cs generalizing ct with
  | nil => exact absurd hs List.not_mem_nil
  | cons c cs ih =>
    cases ct with
    | nil => exact absurd ht List.not_mem_nil
    | cons d ct =>
      rw [strcmp]
      by_cases hd : c = d
      · subst hd
        rw [if_neg (not_not.mpr rfl)]
        by_cases hc : c = 0
        · subst hc
          exact ⟨0, if_pos rfl, iff_of_true rfl rfl⟩
        · obtain ⟨r, hr, hiff⟩ := ih (ends_cons hc hs) (ends_cons hc ht)
          refine ⟨r, (if_neg hc).trans hr, ?_⟩
          rw [hiff, shown_cons hc, shown_cons hc, List.cons_inj_right]
      · refine ⟨_, if_pos hd, iff_of_false ?_ ?_⟩
        · split <;> decide
        · intro heq
          by_cases hc : c = 0
          · subst hc
            rw [shown_nul, shown_cons (Ne.symm hd)] at heq
            cases heq
          · by_cases hd0 : d = 0
            · subst hd0
              rw [shown_nul, shown_cons hc] at heq
              cases heq
            · rw [shown_cons hc, shown_cons hd0] at heq
              exact hd (List.cons.inj heq).1

/-- A comparison with a string literal. -/
theorem strcmp_literal {text : List UInt8} (h : 0 ∉ text) (word : CStr) :
    ∃ r, strcmp (text ++ [0]) word.memory = some r ∧ (r = 0 ↔ word.text = text) := by
  have hends : 0 ∈ text ++ [0] := List.mem_append_right _ (List.mem_singleton_self 0)
  obtain ⟨r, hr, hiff⟩ := strcmp_eq hends word.ends
  rw [shown_concat, shown_of_no_nul h] at hiff
  exact ⟨r, hr, hiff.trans eq_comm⟩

theorem text_no_nul (s : CStr) : 0 ∉ s.text := by
  intro h
  have hne := List.mem_takeWhile_imp h
  simp at hne

/-- A copy of `n` bytes that is followed by a NUL shows the first `n` bytes of the string. -/
theorem shown_strncpy (src : CStr) (n : Nat) (rest : List UInt8) :
    shown (strncpy src n ++ [0] ++ rest) = src.text.take n := by
  have htake : 0 ∉ src.text.take n := fun h => text_no_nul src (List.mem_of_mem_take h)
  rw [shown_terminated, strncpy]
  cases n - src.text.length with
  | zero => rw [List.replicate_zero, List.append_nil, shown_of_no_nul htake]
  | succ k =>
    rw [List.replicate_succ, ← List.singleton_append, ← List.append_assoc, shown_terminated,
      shown_of_no_nul htake]

theorem strncpy_length (src : CStr) (n : Nat) : (strncpy src n).length = n := by
  simp only [strncpy, List.length_append, List.length_take, List.length_replicate]
  omega

end CStr

end KernelDrivers.Framework
