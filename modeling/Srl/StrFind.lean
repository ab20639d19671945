import Srl.StrSane
import Srl.BytesFind
import Srl.Occurrences

namespace Srl

open Cells Session Occurrences

namespace Bytes

variable {l t : Bytes} {c : UInt8} {pos i : Nat}

theorem charAt_length (l : Bytes) : charAt l l.length = 0 := by
  rw [charAt, List.getD_eq_getElem?_getD, List.getElem?_eq_none (Nat.le_refl _)]
  rfl

theorem charAt_of_lt (h : i < l.length) : charAt l i = l[i] := by
  rw [charAt, List.getD_eq_getElem?_getD, List.getElem?_eq_getElem h]
  rfl

theorem charAt_append (front w : Bytes) (i : Nat) : charAt (front ++ w) (front.length + i) = charAt w i := by
  rw [charAt, charAt, List.getD_eq_getElem?_getD, List.getD_eq_getElem?_getD,
    List.getElem?_append_right (Nat.le_add_right _ _), Nat.add_sub_cancel_left]

theorem charAt_front (front : Bytes) (b : UInt8) (w : Bytes) : charAt (front ++ b :: w) front.length = b :=
  charAt_append front (b :: w) 0

theorem cstr_cons (c : UInt8) (l : Bytes) : cstr (c :: l) = if c = 0 then [] else c :: cstr l := by
  by_cases hc : c = 0
  · rw [if_pos hc, hc]
    rfl
  · rw [if_neg hc, cstr, List.takeWhile_cons_of_pos (by simpa using hc), cstr]

/-- `find`, from one character to the next. -/
theorem find_step (hpos : pos < l.length) :
    l.find c pos = if l[pos] = c then some pos else if l[pos] = 0 then none else l.find c (pos + 1) := by
  unfold find
  rw [List.drop_eq_getElem_cons hpos, cstr_cons]
  by_cases hzero : l[pos] = 0
  · rw [if_pos hzero, hzero]
    by_cases hc : c = 0
    · rw [if_pos hc, if_pos hc.symm]
      rfl
    · rw [if_neg hc, if_neg (Ne.symm hc), if_pos rfl]
      rfl
  · rw [if_neg hzero, if_neg hzero]
    by_cases hc : c = 0
    · subst hc
      rw [if_pos rfl, if_pos rfl, if_neg hzero, List.length_cons]
      congr 1
      omega
    · rw [if_neg hc, if_neg hc, List.findIdx?_cons]
      by_cases heq : l[pos] = c
      · rw [if_pos (by simpa using heq), if_pos heq]
        rfl
      · rw [if_neg (by simpa using heq), if_neg heq, Option.map_map]
        congr 1
        funext i
        show pos + (i + 1) = pos + 1 + i
        omega

theorem find_end (c : UInt8) (l : Bytes) : l.find c l.length = if c = 0 then some l.length else none := by
  unfold find
  rw [List.drop_length]
  rfl

/-- In a text without `NUL`, `find` gives the first occurrence from `pos` on. -/
theorem find_firstAt (hl : ∀ c ∈ l, c ≠ 0) (hc : c ≠ 0) (pos : Nat) :
    l.find c pos = (firstAt [c] (l.drop pos)).map (pos + ·) := by
  rw [find, if_neg hc, cstr_of_ne fun x hx => hl x (List.mem_of_mem_drop hx), firstAt_singleton]

theorem findText_firstAt (hl : ∀ c ∈ l, c ≠ 0) (t : Bytes) (pos : Nat) :
    l.findText t pos = (firstAt t (l.drop pos)).map (pos + ·) := by
  rw [findText, cstr_of_ne fun x hx => hl x (List.mem_of_mem_drop hx), firstAt]

end Bytes

namespace Str

variable {s : Str} {l needle : Bytes} {c : UInt8} {pos i : Nat}

/-- What a call that only reads relies on: the text and the terminator stand where `_str` points. -/
structure Shows (s : Str) (l : Bytes) : Prop where
  length_eq : s.string_length = l.length
  shown : l ++ [0] <+: s.memory

theorem Holds.shows (h : Holds s l) : Shows s l := by
  refine ⟨h.length_eq, ?_⟩
  by_cases hs : s.str.isSome
  · obtain ⟨r, hr⟩ := h.some_buffer hs
    rw [hr]
    exact ⟨r, by rw [List.append_assoc]; rfl⟩
  · have hnone : s.str = none := by simpa using hs
    rw [memory, hnone, (h.empty_iff.mp hnone).1]
    exact ⟨[0, 0, 0], rfl⟩

/-- The same text in memory that ends with the terminator. -/
theorem Shows.clipped (h : Shows s l) : Shows (s.withBuffer (l ++ [0])) l := ⟨h.length_eq, List.prefix_refl _⟩

namespace Shows

theorem length_lt (h : Shows s l) : l.length < s.memory.length := by
  have hle := h.shown.length_le
  rw [List.length_append, List.length_singleton] at hle
  omega

theorem memory_eq (h : Shows s l) (hi : i ≤ l.length) : s.memory[i]? = some (l.charAt i) := by
  obtain ⟨r, hr⟩ := h.shown
  rw [← hr, List.append_assoc]
  obtain hlt | rfl := Nat.lt_or_eq_of_le hi
  · rw [List.getElem?_append_left hlt, List.getElem?_eq_getElem hlt, Bytes.charAt_of_lt hlt]
  · rw [List.getElem?_append_right (Nat.le_refl _), Nat.sub_self, Bytes.charAt_length]
    rfl

theorem read_eq (h : Shows s l) (hi : i ≤ l.length) : read i s = (.ok (l.charAt i), s) := by
  unfold read
  rw [get_bind, h.memory_eq hi]
  rfl

theorem charLoop_eq (h : Shows s l) (c : UInt8) {fuel : Nat} (hpos : pos ≤ l.length) (hfuel : l.length - pos < fuel) :
    charLoop c fuel pos s = (.ok (l.find c pos), s) := by
  induction fuel generalizing pos with
  | zero => exact absurd hfuel (Nat.not_lt_zero _)
  | succ fuel ih =>
    rw [charLoop, bind_ok (h.read_eq hpos)]
    obtain hlt | rfl := Nat.lt_or_eq_of_le hpos
    · rw [Bytes.charAt_of_lt hlt, Bytes.find_step hlt]
      split
      next => rfl
      next =>
        split
        next => rfl
        next => exact ih hlt (by omega)
    · rw [Bytes.charAt_length, Bytes.find_end]
      by_cases hc : c = 0
      · rw [if_pos hc, if_pos hc.symm]
        rfl
      · rw [if_neg hc, if_neg (Ne.symm hc)]
        rfl

theorem find_eq (h : Shows s l) (c : UInt8) (hpos : pos ≤ l.length) :
    find c pos s = (.ok (position (l.find c pos)), s) := by
  have hlt := h.length_lt
  unfold find
  rw [get_bind, bind_ok (h.charLoop_eq c hpos (by omega))]
  rfl

theorem startsAt_eq (h : Shows s l) (hneedle : ∀ c ∈ needle, c ≠ 0) (hi : i ≤ l.length) :
    startsAt needle i s = (.ok (needle.isPrefixOf (l.drop i)), s) := by
  induction needle generalizing i with
  | nil => rfl
  | cons d needle ih =>
    have hd : d ≠ 0 := hneedle d List.mem_cons_self
    rw [startsAt, bind_ok (h.read_eq hi)]
    obtain hlt | rfl := Nat.lt_or_eq_of_le hi
    · rw [Bytes.charAt_of_lt hlt, List.drop_eq_getElem_cons hlt, List.isPrefixOf_cons_cons]
      by_cases heq : l[i] = d
      · rw [if_pos heq, ih (fun c hc => hneedle c (List.mem_cons_of_mem _ hc)) hlt, heq, BEq.rfl, Bool.true_and]
      · rw [if_neg heq, beq_false_of_ne (Ne.symm heq), Bool.false_and]
        rfl
    · rw [Bytes.charAt_length, if_neg (Ne.symm hd), List.drop_length]
      rfl

theorem textLoop_eq (h : Shows s l) (hl : ∀ c ∈ l, c ≠ 0) (hneedle : ∀ c ∈ needle, c ≠ 0) {fuel : Nat}
    (hpos : pos ≤ l.length) (hfuel : l.length - pos < fuel) :
    textLoop needle fuel pos s = (.ok (l.findText needle pos), s) := by
  induction fuel generalizing pos with
  | zero => exact absurd hfuel (Nat.not_lt_zero _)
  | succ fuel ih =>
    rw [textLoop, bind_ok (h.startsAt_eq hneedle hpos), Bytes.findText_firstAt hl]
    obtain hlt | rfl := Nat.lt_or_eq_of_le hpos
    · have hdrop : l.drop pos = l[pos] :: l.drop (pos + 1) := List.drop_eq_getElem_cons hlt
      rw [hdrop, firstAt_cons]
      split
      next hstarts =>
        rw [if_pos (List.isPrefixOf_iff_prefix.mp hstarts)]
        rfl
      next hstarts =>
        rw [if_neg fun hp => hstarts (List.isPrefixOf_iff_prefix.mpr hp), bind_ok (h.read_eq hpos),
          Bytes.charAt_of_lt hlt, if_neg (hl _ (List.getElem_mem hlt)), ih hlt (by omega), Bytes.findText_firstAt hl,
          Option.map_map]
        congr 3
        funext i
        show pos + 1 + i = pos + (i + 1)
        omega
    · rw [List.drop_length]
      cases needle with
      | nil => rfl
      | cons d needle =>
        rw [if_neg (fun hp => Bool.noConfusion hp), bind_ok (h.read_eq (Nat.le_refl _)),
          Bytes.charAt_length, if_pos rfl]
        rfl

theorem findText_eq (h : Shows s l) (hl : ∀ c ∈ l, c ≠ 0) (hneedle : ∀ c ∈ needle, c ≠ 0) (hpos : pos ≤ l.length) :
    findText needle pos s = (.ok (position (l.findText needle pos)), s) := by
  have hlt := h.length_lt
  unfold findText
  rw [get_bind, bind_ok (h.textLoop_eq hl hneedle hpos (by omega))]
  rfl

end Shows

theorem bmod_of_lt (h : i < 2 ^ 31) : ((i : Int)).bmod (2 ^ 32) = i := by
  rw [Int.bmod_eq_of_le_mul_two]
  · omega
  · omega

theorem bmod_of_ge (h : 2 ^ 31 ≤ i) (hi : i < 2 ^ 32) : ((i : Int)).bmod (2 ^ 32) = (i : Int) - 2 ^ 32 := by
  rw [← Int.sub_bmod_right, Int.bmod_eq_of_le_mul_two]
  · push_cast
    rfl
  · push_cast
    omega
  · push_cast
    omega

/-- An index as the `int32` that `find` returns. -/
theorem position_of_lt (h : i < 2 ^ 31) : position (some i) = i := by
  unfold position
  exact bmod_of_lt h

theorem position_of_ge (h : 2 ^ 31 ≤ i) (hi : i < 2 ^ 32) : position (some i) = (i : Int) - 2 ^ 32 := by
  unfold position
  exact bmod_of_ge h hi

theorem position_neg (hi : i < 2 ^ 32) : position (some i) < 0 ↔ 2 ^ 31 ≤ i := by
  obtain h | h := Nat.lt_or_ge i (2 ^ 31)
  · rw [position_of_lt h]
    omega
  · rw [position_of_ge h hi]
    omega

end Str

end Srl
