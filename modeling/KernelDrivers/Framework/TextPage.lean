import Mathlib.Data.List.Basic
import Mathlib.Data.List.TakeWhile

namespace KernelDrivers.Framework

/-- The bytes before the first NUL. -/
def shown (bytes : List UInt8) : List UInt8 := bytes.takeWhile (· ≠ 0)

/-- What `%s` reads from a buffer; there is no outcome when the buffer ends before a NUL. -/
def cString (bytes : List UInt8) : Option (List UInt8) :=
  if 0 ∈ bytes then some (shown bytes) else none

/-- The characters of a text, one byte for each. -/
def ascii (text : List Char) : List UInt8 := text.map fun c => UInt8.ofNat c.toNat

@[simp] theorem ascii_length (text : List Char) : (ascii text).length = text.length := by
  simp [ascii]

theorem shown_concat (bytes : List UInt8) : shown (bytes ++ [0]) = shown bytes := by
  induction bytes with
  | nil => rfl
  | cons b bytes ih =>
    by_cases hb : b = 0
    · simp [shown, hb]
    · simpa [shown, hb] using ih

/-- A buffer that ends in a NUL is read up to its first one. -/
theorem cString_concat (bytes : List UInt8) : cString (bytes ++ [0]) = some (shown bytes) := by
  rw [cString, if_pos (by simp), shown_concat]

theorem shown_of_no_nul {bytes : List UInt8} (h : 0 ∉ bytes) : shown bytes = bytes := by
  apply List.takeWhile_eq_self_iff.mpr
  intro b hb
  have hne : b ≠ 0 := by
    intro heq
    exact h (heq ▸ hb)
  simpa using hne

theorem shown_length_le (bytes : List UInt8) : (shown bytes).length ≤ bytes.length :=
  (List.takeWhile_prefix _).length_le

theorem shown_length_lt {bytes : List UInt8} (h : 0 ∈ bytes) :
    (shown bytes).length < bytes.length := by
  apply lt_of_le_of_ne (shown_length_le bytes)
  intro heq
  have hall : shown bytes = bytes := (List.takeWhile_prefix _).eq_of_length heq
  have hne := List.takeWhile_eq_self_iff.mp hall 0 h
  simp at hne

theorem flatten_shown_length_le (texts : List (List UInt8)) :
    (texts.map shown).flatten.length ≤ texts.flatten.length := by
  induction texts with
  | nil => exact Nat.le_refl 0
  | cons text texts ih =>
    have htext := shown_length_le text
    simp only [List.map_cons, List.flatten_cons, List.length_append]
    omega

/-- A NUL in one of the texts makes what is shown of them shorter. -/
theorem flatten_shown_length_lt {texts : List (List UInt8)} (h : 0 ∈ texts.flatten) :
    (texts.map shown).flatten.length < texts.flatten.length := by
  induction texts with
  | nil => exact absurd h List.not_mem_nil
  | cons text texts ih =>
    simp only [List.map_cons, List.flatten_cons, List.length_append]
    rw [List.flatten_cons, List.mem_append] at h
    rcases h with htext | hrest
    · have hlt := shown_length_lt htext
      have hle := flatten_shown_length_le texts
      omega
    · have hle := shown_length_le text
      have hlt := ih hrest
      omega

theorem flatten_shown_of_no_nul {texts : List (List UInt8)} (h : 0 ∉ texts.flatten) :
    (texts.map shown).flatten = texts.flatten := by
  induction texts with
  | nil => rfl
  | cons text texts ih =>
    rw [List.flatten_cons, List.mem_append, not_or] at h
    rw [List.map_cons, List.flatten_cons, List.flatten_cons, shown_of_no_nul h.1, ih h.2]

/-- The bytes written to a page so far, and the length of the text among them. -/
structure Page where
  written : List UInt8
  len : Nat
  fits : len ≤ written.length

namespace Page

def empty : Page := ⟨[], 0, Nat.le_refl 0⟩

/-- The text on the page. -/
def text (p : Page) : List UInt8 := p.written.take p.len

/-- `len += sprintf(page + len, text)`: the text is written and a NUL behind it, and the next
text is written over this NUL. -/
def sprintf (p : Page) (text : List UInt8) : Page where
  written := p.written.take p.len ++ text ++ [0]
  len := p.len + text.length
  fits := by
    have hfits := p.fits
    simp
    omega

@[simp] theorem text_empty : empty.text = [] := rfl

theorem written_sprintf (p : Page) (text : List UInt8) :
    (p.sprintf text).written = p.text ++ text ++ [0] := rfl

@[simp] theorem text_sprintf (p : Page) (text : List UInt8) :
    (p.sprintf text).text = p.text ++ text := by
  have hlen : (p.written.take p.len ++ text).length = p.len + text.length := by
    rw [List.length_append, List.length_take, Nat.min_eq_left p.fits]
  show (p.written.take p.len ++ text ++ [0]).take (p.len + text.length) = p.text ++ text
  rw [← hlen, List.take_left]
  rfl

/-- What is on the page after some texts. -/
theorem text_foldl (p : Page) (texts : List (List UInt8)) :
    (texts.foldl sprintf p).text = p.text ++ texts.flatten := by
  induction texts generalizing p with
  | nil => simp
  | cons text texts ih =>
    rw [List.foldl_cons, ih, text_sprintf, List.flatten_cons, List.append_assoc]

/-- Behind the last text that has been written there is a NUL. -/
theorem written_foldl (p : Page) {texts : List (List UInt8)} (h : texts ≠ []) :
    (texts.foldl sprintf p).written = p.text ++ texts.flatten ++ [0] := by
  obtain ⟨front, last, rfl⟩ := texts.eq_nil_or_concat'.resolve_left h
  rw [List.foldl_append, List.foldl_cons, List.foldl_nil, written_sprintf, text_foldl]
  simp

end Page

end KernelDrivers.Framework
