import Srl.Str
import Srl.Uri
import Srl.BytesFind
import Mathlib.Data.List.DropRight

namespace Srl

namespace Bytes

/-- `String::trimEnd`, as a function of the text. -/
def trimEnd (s : Bytes) : Bytes := s.rdropWhile Str.blank

/-- `String::trim`. -/
def trim (s : Bytes) : Bytes := trimEnd (s.dropWhile Str.blank)

/-- The C library's `tolower`. -/
def tolower (c : UInt8) : UInt8 := if 65 ≤ c ∧ c ≤ 90 then c + 32 else c

/-- `String::toLower`. -/
def toLower (s : Bytes) : Bytes := s.map tolower

/-- `between(char, char)`. A length of -1 is one of nearly 2³², with which the copy runs past the string: `none`. -/
def betweenChars (s : Bytes) (c1 c2 : UInt8) : Option Bytes :=
  match s.find c1 0 with
  | none => some []
  | some pos =>
    let start_pos := pos + 1
    let stop_pos := match s.find c2 start_pos with
      | some pos => pos + 1
      | none => s.length
    if start_pos + 1 ≤ stop_pos then some (s.mid start_pos (stop_pos - start_pos - 1)) else none

/-- `beginsWith(const char*)`. -/
def beginsWith (s bstr : Bytes) : Bool := (cstr bstr).isPrefixOf (cstr s)

variable {s a m r : Bytes} {c c1 c2 : UInt8} {pos n : Nat}

theorem trimEnd_nil : trimEnd [] = [] := rfl

theorem trimEnd_blanks (h : ∀ c ∈ s, Str.blank c = true) : trimEnd s = [] := List.rdropWhile_eq_nil_iff.mpr h

theorem trimEnd_append (hc : Str.blank c = false) : trimEnd (a ++ c :: r) = a ++ c :: trimEnd r := by
  have hfront : (c :: a.reverse).dropWhile Str.blank = c :: a.reverse :=
    List.dropWhile_cons_of_neg (by rw [hc]; exact Bool.false_ne_true)
  have hdrop : (r.reverse ++ c :: a.reverse).dropWhile Str.blank = r.reverse.dropWhile Str.blank ++ c :: a.reverse := by
    rw [List.dropWhile_append]
    split
    next hempty => rw [hfront, List.isEmpty_iff.mp hempty, List.nil_append]
    next => rfl
  rw [trimEnd, List.rdropWhile, List.reverse_append, List.reverse_cons, List.append_assoc, List.singleton_append, hdrop,
    List.reverse_append, List.reverse_cons, List.reverse_reverse, List.append_assoc]
  rfl

/-- The blanks behind a text that does not end with one. -/
theorem trimEnd_last (ha : ∀ c, a.getLast? = some c → Str.blank c = false) (hr : ∀ c ∈ r, Str.blank c = true) :
    trimEnd (a ++ r) = a := by
  rcases List.eq_nil_or_concat a with rfl | ⟨a, c, rfl⟩
  · exact trimEnd_blanks hr
  · rw [List.concat_eq_append] at ha ⊢
    have hc := ha c List.getLast?_concat
    rw [List.append_assoc, List.singleton_append, trimEnd_append hc, trimEnd_blanks hr]

theorem trim_blanks (h : ∀ c ∈ s, Str.blank c = true) : trim s = [] := by
  rw [trim, List.dropWhile_eq_nil_iff.mpr h, trimEnd_nil]

theorem trim_eq_nil_iff : trim s = [] ↔ ∀ c ∈ s, Str.blank c = true := by
  refine ⟨fun h => ?_, trim_blanks⟩
  have hrest := List.rdropWhile_eq_nil_iff.mp h
  intro c hc
  rw [← @List.takeWhile_append_dropWhile _ Str.blank s] at hc
  rcases List.mem_append.mp hc with hc | hc
  · exact List.mem_takeWhile_imp hc
  · exact hrest c hc

theorem betweenChars_none (h : c1 ∉ s) (hc : c1 ≠ 0) : s.betweenChars c1 c2 = some [] := by
  rw [betweenChars, find_eq_none hc fun x hx he => h (he ▸ List.mem_of_mem_drop hx)]

/-- The text between two characters; one of length 0 is taken for the whole rest. -/
theorem betweenChars_eq (hs : s = a ++ c1 :: (m ++ c2 :: r)) (hc1 : c1 ≠ 0) (hc2 : c2 ≠ 0)
    (ha : ∀ x ∈ a, x ≠ c1 ∧ x ≠ 0) (hm : ∀ x ∈ m, x ≠ c2 ∧ x ≠ 0) :
    s.betweenChars c1 c2 = some (if m = [] then cstr (c2 :: r) else m) := by
  have hfirst : s.find c1 0 = some a.length := by
    rw [find_eq (by rw [List.drop_zero]; exact hs) hc1 ha, Nat.zero_add]
  have hdrop : s.drop (a.length + 1) = m ++ c2 :: r := by
    rw [hs, ← List.drop_drop, List.drop_left]
    rfl
  have hsecond : s.find c2 (a.length + 1) = some (a.length + 1 + m.length) := find_eq hdrop hc2 hm
  have hle : a.length + 1 + m.length ≤ s.length := by
    rw [hs]
    simp only [List.length_append, List.length_cons]
    omega
  have hlen : a.length + 1 + m.length + 1 - (a.length + 1) - 1 = m.length := by omega
  have hcall : s.betweenChars c1 c2 = if a.length + 1 + 1 ≤ a.length + 1 + m.length + 1 then
      some (s.mid (a.length + 1) (a.length + 1 + m.length + 1 - (a.length + 1) - 1)) else none := by
    rw [betweenChars, hfirst]
    dsimp only
    rw [hsecond]
  rw [hcall, if_pos (by omega), hlen, mid, if_pos hle, ofText, hdrop]
  congr 1
  by_cases hnil : m = []
  · rw [hnil, if_pos rfl, if_pos List.length_nil, List.nil_append]
  · rw [if_neg hnil, if_neg fun h => hnil (List.eq_nil_of_length_eq_zero h), List.take_left]

/-- Without the second character the last one of the string is cut off, and a text of one character is taken
whole. -/
theorem betweenChars_open (hs : s = a ++ c1 :: m) (hc1 : c1 ≠ 0) (hc2 : c2 ≠ 0) (ha : ∀ x ∈ a, x ≠ c1 ∧ x ≠ 0)
    (hm : ∀ x ∈ m, x ≠ c2 ∧ x ≠ 0) (hne : m ≠ []) :
    s.betweenChars c1 c2 = some (if m.length = 1 then m else m.dropLast) := by
  have hfirst : s.find c1 0 = some a.length := by
    rw [find_eq (by rw [List.drop_zero]; exact hs) hc1 ha, Nat.zero_add]
  have hdrop : s.drop (a.length + 1) = m := by
    rw [hs, ← List.drop_drop, List.drop_left]
    rfl
  have hsecond : s.find c2 (a.length + 1) = none := by
    refine find_eq_none hc2 ?_
    rw [hdrop]
    exact fun x hx => (hm x hx).1
  have hlength : s.length = a.length + 1 + m.length := by
    rw [hs]
    simp only [List.length_append, List.length_cons]
    omega
  have hpos := List.length_pos_of_ne_nil hne
  have hcall : s.betweenChars c1 c2 = if a.length + 1 + 1 ≤ s.length then
      some (s.mid (a.length + 1) (s.length - (a.length + 1) - 1)) else none := by
    rw [betweenChars, hfirst]
    dsimp only
    rw [hsecond]
  rw [hcall, if_pos (by omega), mid, if_pos (by omega), ofText, hdrop, hlength, cstr_of_ne fun x hx => (hm x hx).2]
  congr 1
  by_cases hone : m.length = 1
  · rw [if_pos hone, if_pos (by omega)]
  · rw [if_neg hone, if_neg (by omega), List.dropLast_eq_take]
    congr 1
    omega

theorem sectionFrom_next (hs : s.drop pos = a ++ c :: r) (hc : c ≠ 0) (ha : ∀ x ∈ a, x ≠ c ∧ x ≠ 0) :
    sectionFrom s c (n + 1) pos = sectionFrom s c n (pos + a.length + 1) := by
  rw [sectionFrom, find_eq hs hc ha]

/-- A field in front of a delimiter; an empty one is taken for the whole rest. -/
theorem sectionFrom_field (hs : s.drop pos = a ++ c :: r) (hc : c ≠ 0) (ha : ∀ x ∈ a, x ≠ c ∧ x ≠ 0) :
    sectionFrom s c 0 pos = if a = [] then cstr (c :: r) else a := by
  rw [sectionFrom, find_eq hs hc ha, Option.getD_some, Nat.add_sub_cancel_left]
  split
  next hnil =>
    have hle : pos ≤ s.length := by
      have := congrArg List.length hs
      simp only [List.length_drop, List.length_append, List.length_cons] at this
      omega
    rw [hnil, mid, List.length_nil, Nat.add_zero, if_pos hle, ofText, if_pos rfl, hs, hnil, List.nil_append]
  next hne => exact substr_eq hs hne

/-- The last field. -/
theorem sectionFrom_last (hs : s.drop pos = a) (hpos : pos ≤ s.length) (hc : c ≠ 0) (ha : c ∉ a) :
    sectionFrom s c 0 pos = a := by
  have hlen : s.length - pos = a.length := by rw [← hs, List.length_drop]
  have hnone : s.find c pos = none := find_eq_none hc fun x hx he => ha (by rw [← hs, ← he]; exact hx)
  rw [sectionFrom, hnone, Option.getD_none, hlen]
  by_cases hnil : a = []
  · rw [hnil, mid, List.length_nil, Nat.add_zero, if_pos hpos, ofText, if_pos rfl, hs, hnil]
    rfl
  · exact substr_eq (by rw [hs, List.append_nil]) hnil

/-- The first field of a text with a delimiter. -/
theorem section_first (hs : s = a ++ c :: r) (hc : c ≠ 0) (ha : ∀ x ∈ a, x ≠ c ∧ x ≠ 0) (hne : a ≠ []) :
    s.«section» c 0 = a := by
  rw [«section», sectionFrom_field (by rw [List.drop_zero]; exact hs) hc ha, if_neg hne]

end Bytes

end Srl
