import Srl.StrHolds
import Mathlib.Data.List.DropRight

namespace Srl

open Cells Session

namespace Str

variable {s : Str} {l b d : Bytes} {n pos : Nat} {c : UInt8}

/-- A resize keeps as much of the buffer as there is and as it needs. -/
theorem resize_any (fresh : Nat → UInt8) (ha : s.array_size = s.buffer.length) (hm : s.min_size + 16 < 2 ^ 32)
    (hfew : n + 16 < 2 ^ 32) (hpos : 0 < n ∨ 0 < s.min_size) :
    ∃ x r, resize fresh n s = (.ok (), (s.resized fresh n).withBuffer (x ++ 0 :: r)) ∧ x.length = n ∧
      (x ++ 0 :: r).length = s.rounded n ∧ (n ≤ s.buffer.length → x = s.buffer.take n) := by
  have hr := lt_rounded hfew hm
  obtain ⟨hsome, r, hbuf, hlen⟩ := resized_buffer fresh hpos hr
  refine ⟨_, r, ?_, ?_, by rw [← hbuf, hlen], fun hle => ?_⟩
  · rw [resize_eq fresh ha hfew hm, ← hbuf, withBuffer_buffer hsome]
  · rw [List.length_take, length_realloc]
    omega
  · rw [← window_zero, window_realloc fresh (Nat.le_of_lt hr) hle, window_zero]

/-- A resize to the length of a text that stands at the front of the buffer. -/
theorem resize_cut (fresh : Nat → UInt8) (ha : s.array_size = s.buffer.length) (hm : s.min_size + 16 < 2 ^ 32)
    (hfew : l.length + 16 < 2 ^ 32) (hl : l <+: s.buffer) :
    ∃ s', resize fresh l.length s = (.ok (), s') ∧ Holds s' l := by
  by_cases hpos : 0 < l.length ∨ 0 < s.min_size
  · obtain ⟨x, r, hres, hx, hlen, hkept⟩ := resize_any fresh ha hm hfew hpos
    obtain rfl : x = l := (hkept hl.length_le).trans (List.prefix_iff_eq_take.mp hl).symm
    exact ⟨_, hres, .of_resized hm hpos rfl hlen⟩
  · obtain rfl : l = [] := List.eq_nil_of_length_eq_zero (by omega)
    exact ⟨_, resize_eq fresh ha hfew hm, .of_null (by omega)⟩

theorem Holds.prefix_buffer (h : Holds s l) : l <+: s.buffer := by
  by_cases hs : s.str.isSome
  · exact (List.prefix_append l [0]).trans (h.terminated hs)
  · rw [(h.empty_iff.mp (by simpa using hs)).1]
    exact List.nil_prefix

theorem room_of_lt (h : n < 2 ^ 31) : n + 16 < 2 ^ 32 := by omega

theorem Holds.truncate_spec (h : Holds s l) (fresh : Nat → UInt8) (hfew : l.length + 16 < 2 ^ 32) (hn : n ≤ l.length) :
    ∃ s', truncate fresh n s = (.ok (), s') ∧ Holds s' (l.take n) := by
  have hlen : (l.take n).length = n := by
    rw [List.length_take]
    omega
  obtain ⟨s', hs', hholds⟩ := resize_cut fresh h.array_size_eq h.min_lt (l := l.take n) (by omega)
    ((List.take_prefix n l).trans h.prefix_buffer)
  rw [hlen] at hs'
  exact ⟨s', hs', hholds⟩

theorem Holds.reserve_spec (h : Holds s l) (fresh : Nat → UInt8) (hfew : l.length < 2 ^ 31) (hn : n + 16 < 2 ^ 32) :
    ∃ s', reserve fresh n s = (.ok (), s') ∧ Holds s' l := by
  obtain ⟨s', hs', hholds⟩ := @resize_cut { s with min_size := n } l fresh h.array_size_eq hn (by omega) h.prefix_buffer
  refine ⟨s', ?_, hholds⟩
  unfold reserve
  rw [modify_bind, get_bind, show ({ s with min_size := n } : Str).string_length = l.length from h.length_eq]
  exact hs'

/-- The copy of a text, over whatever the string was. -/
theorem copy_spec (fresh : Nat → UInt8) (ha : s.array_size = s.buffer.length) (hm : s.min_size + 16 < 2 ^ 32)
    (hfew : d.length + 16 < 2 ^ 32) : ∃ s', copy fresh d s = (.ok (), s') ∧ Holds s' d := by
  have hlen : d.length % 2 ^ 32 = d.length := Nat.mod_eq_of_lt (by omega)
  unfold copy
  rw [hlen]
  by_cases hd : 0 < d.length
  · obtain ⟨x, r, hres, hx, hround, -⟩ := resize_any fresh ha hm (by omega) (.inl hd)
    have hover : overwrite (x ++ 0 :: r) 0 d = d ++ 0 :: r := @overwrite_middle _ [] x (0 :: r) d 0 rfl hx
    rw [bind_ok hres, if_pos hd, List.take_length, bind_ok (memcpy_eq (by simp; omega)), hover,
      write_eq (by simp), List.set_append_right _ _ (Nat.le_refl _), Nat.sub_self]
    refine ⟨_, rfl, .of_resized hm (.inl hd) rfl ?_⟩
    simp only [List.length_append, List.length_cons] at hround ⊢
    omega
  · obtain rfl : d = [] := List.eq_nil_of_length_eq_zero (by omega)
    obtain ⟨s', hs', hholds⟩ := resize_cut fresh ha hm (l := []) (by decide) List.nil_prefix
    rw [show ([] : Bytes).length = 0 from rfl] at hs' ⊢
    rw [bind_ok hs', if_neg (by decide)]
    exact ⟨s', rfl, hholds⟩

theorem Holds.assignChar_spec (h : Holds s l) (fresh : Nat → UInt8) (c : UInt8) :
    ∃ s', assignChar fresh c s = (.ok (), s') ∧ Holds s' [c] := by
  obtain ⟨x, r, hres, hx, hround, -⟩ := resize_any fresh h.array_size_eq h.min_lt (by decide : 1 + 16 < 2 ^ 32)
    (.inl Nat.one_pos)
  obtain ⟨x₀, rfl⟩ := List.length_eq_one_iff.mp hx
  unfold assignChar
  rw [bind_ok hres, write_eq (by simp)]
  exact ⟨_, rfl, @Holds.of_resized _ [c] 1 fresh r h.min_lt (.inl Nat.one_pos) rfl hround⟩

theorem Holds.plusChar_spec (h : Holds s l) (fresh : Nat → UInt8) (hfew : l.length + 1 < 2 ^ 31) (hc : c ≠ 0) :
    ∃ s', plusChar fresh c s = (.ok (), s') ∧ Holds s' (l ++ [c]) := by
  have hsum : (1 + s.string_length) % 2 ^ 32 = l.length + 1 := by
    rw [h.length_eq]
    omega
  obtain ⟨g, r, hres, hg, -, hlen⟩ := h.resize_grows fresh (Nat.le_succ _) (by omega) (.inl (Nat.succ_pos _))
  obtain ⟨g₀, rfl⟩ := List.length_eq_one_iff.mp (by omega : g.length = 1)
  have hset : (l ++ ([g₀] ++ 0 :: r)).set l.length c = (l ++ [c]) ++ 0 :: r := by
    rw [List.set_append_right _ _ (Nat.le_refl _), Nat.sub_self, List.append_assoc]
    rfl
  unfold plusChar
  rw [if_neg hc, get_bind, hsum, bind_ok hres, get_bind]
  rw [resized_withBuffer_length, Nat.add_one_sub_one, write_eq (by simp), hset]
  refine ⟨_, rfl, .of_resized h.min_lt (.inl (Nat.succ_pos _)) (by simp) ?_⟩
  rw [← hlen]
  simp

theorem Holds.some_buffer (h : Holds s l) (hs : s.str.isSome) : ∃ r, s = s.withBuffer (l ++ 0 :: r) := by
  obtain ⟨r, hr⟩ := h.terminated hs
  refine ⟨r, ?_⟩
  rw [List.append_cons, hr, withBuffer_buffer hs]

theorem Holds.memory_eq (h : Holds s l) {i : Nat} (hi : i < l.length) : s.memory[i]? = l[i]? := by
  have hs : s.str.isSome := by
    by_contra hs
    rw [(h.empty_iff.mp (by simpa using hs)).1] at hi
    exact absurd hi (Nat.not_lt_zero _)
  obtain ⟨r, hr⟩ := h.some_buffer hs
  rw [hr]
  show (l ++ 0 :: r)[i]? = l[i]?
  rw [List.getElem?_append_left hi]

theorem Holds.read_eq (h : Holds s l) {i : Nat} (hi : i < l.length) : read i s = (.ok l[i], s) := by
  unfold read
  rw [get_bind, h.memory_eq hi, List.getElem?_eq_getElem hi]
  rfl

theorem Holds.beginLoop_eq (h : Holds s l) {fuel i : Nat} (hi : i + fuel = l.length) :
    beginLoop fuel i s = (.ok (i + ((l.drop i).takeWhile blank).length), s) := by
  induction fuel generalizing i with
  | zero =>
    rw [List.drop_eq_nil_of_le (by omega)]
    rfl
  | succ fuel ih =>
    have hlt : i < l.length := by omega
    rw [beginLoop, bind_ok (h.read_eq hlt), List.drop_eq_getElem_cons hlt, List.takeWhile_cons]
    by_cases hb : blank l[i] = true
    · rw [if_pos hb, if_pos hb, ih (by omega), List.length_cons]
      congr 2
      omega
    · rw [if_neg hb, if_neg hb]
      rfl

theorem Holds.trimBegin_spec (h : Holds s l) (fresh : Nat → UInt8) (hfew : l.length < 2 ^ 31) :
    ∃ s', trimBegin fresh s = (.ok (), s') ∧ Holds s' (l.dropWhile blank) := by
  unfold trimBegin
  rw [get_bind]
  by_cases hs : s.str.isSome
  · obtain ⟨r, hr⟩ := h.some_buffer hs
    have hloop := h.beginLoop_eq (Nat.zero_add l.length)
    rw [List.drop_zero, Nat.zero_add, ← h.length_eq] at hloop
    have hsplit : l.takeWhile blank ++ l.dropWhile blank = l := List.takeWhile_append_dropWhile
    have hlen := congrArg List.length hsplit
    rw [List.length_append] at hlen
    have hrest : s.string_length - (l.takeWhile blank).length = (l.dropWhile blank).length := by
      rw [h.length_eq]
      omega
    have hwindow : window (l ++ 0 :: r) (l.takeWhile blank).length
        ((l.takeWhile blank).length + (l.dropWhile blank).length) = l.dropWhile blank := by
      have hbuf : l ++ 0 :: r = l.takeWhile blank ++ (l.dropWhile blank ++ 0 :: r) := by
        rw [← List.append_assoc, hsplit]
      rw [hbuf]
      exact window_middle _ _ _
    have hmove : memmove 0 (l.takeWhile blank).length (l.dropWhile blank).length s =
        (.ok (), s.withBuffer (overwrite (l ++ 0 :: r) 0 (l.dropWhile blank))) := by
      conv_lhs => rw [hr]
      rw [memmove_eq (by simp only [List.length_append]; omega), hwindow]
    have hfront : l.dropWhile blank <+: overwrite (l ++ 0 :: r) 0 (l.dropWhile blank) := by
      have hself := @window_overwrite_self _ (l ++ 0 :: r) (l.dropWhile blank) 0
        (by simp only [List.length_append]; omega)
      rw [Nat.zero_add, window_zero] at hself
      conv_lhs => rw [← hself]
      exact List.take_prefix _ _
    rw [if_pos hs, bind_ok hloop, hrest, bind_ok hmove]
    refine resize_cut fresh ?_ h.min_lt (by omega) hfront
    show s.array_size = (overwrite _ _ _).length
    rw [length_overwrite, h.array_size_eq]
    conv_lhs => rw [hr]
    rfl
  · obtain ⟨rfl, -⟩ := h.empty_iff.mp (by simpa using hs)
    rw [if_neg hs]
    exact ⟨s, rfl, h⟩

theorem Holds.endLoop_eq (h : Holds s l) {e : Nat} (he : e ≤ l.length) :
    endLoop e s = (.ok ((l.take e).rdropWhile blank).length, s) := by
  induction e with
  | zero => rfl
  | succ e ih =>
    have hlt : e < l.length := by omega
    rw [endLoop, bind_ok (h.read_eq hlt), List.take_add_one, List.getElem?_eq_getElem hlt, Option.toList_some]
    by_cases hb : blank l[e] = true
    · rw [if_pos hb, List.rdropWhile_concat_pos _ _ _ hb, ih (by omega)]
    · rw [if_neg hb, List.rdropWhile_concat_neg _ _ _ hb, List.length_append, List.length_take]
      rw [Nat.min_eq_left (by omega)]
      rfl

theorem Holds.trimEnd_spec (h : Holds s l) (fresh : Nat → UInt8) (hfew : l.length < 2 ^ 31) :
    ∃ s', trimEnd fresh s = (.ok (), s') ∧ Holds s' (l.rdropWhile blank) := by
  unfold trimEnd
  rw [get_bind]
  by_cases hs : s.str.isSome
  · have hloop := h.endLoop_eq (Nat.le_refl l.length)
    rw [List.take_length, ← h.length_eq] at hloop
    have hfront := List.rdropWhile_prefix blank l
    have := hfront.length_le
    rw [if_pos hs, bind_ok hloop]
    exact resize_cut fresh h.array_size_eq h.min_lt (by omega) (hfront.trans h.prefix_buffer)
  · obtain ⟨rfl, -⟩ := h.empty_iff.mp (by simpa using hs)
    rw [if_neg hs]
    exact ⟨s, rfl, h⟩

theorem Holds.remove_spec (h : Holds s l) (fresh : Nat → UInt8) (hfew : l.length + 16 < 2 ^ 32) (hpos : pos ≤ l.length)
    (hwrap : pos + n < 2 ^ 32) :
    ∃ s', remove fresh pos n s = (.ok (), s') ∧ Holds s' (l.take pos ++ l.drop (pos + n)) := by
  unfold remove
  rw [get_bind, Nat.mod_eq_of_lt hwrap, h.length_eq]
  by_cases hn : n = 0
  · subst hn
    rw [if_pos rfl, Nat.add_zero, List.take_append_drop]
    exact ⟨s, rfl, h⟩
  · rw [if_neg hn]
    by_cases hend : l.length ≤ pos + n
    · rw [if_pos hend, List.drop_eq_nil_of_le hend, List.append_nil]
      exact h.truncate_spec fresh hfew hpos
    · have hs : s.str.isSome := by
        by_contra hs
        rw [(h.empty_iff.mp (by simpa using hs)).1] at hend
        exact hend (Nat.zero_le _)
      obtain ⟨r, hr⟩ := h.some_buffer hs
      have htail : (l.drop (pos + n)).length = l.length - (pos + n) := List.length_drop
      have hwindow : window (l ++ 0 :: r) (pos + n) (pos + n + (l.length - (pos + n))) = l.drop (pos + n) := by
        rw [window, Nat.add_sub_cancel' (by omega), List.take_left]
      have hmove : memmove pos (pos + n) (l.length - (pos + n)) s =
          (.ok (), s.withBuffer (overwrite (l ++ 0 :: r) pos (l.drop (pos + n)))) := by
        conv_lhs => rw [hr]
        rw [memmove_eq (by simp only [List.length_append]; omega), hwindow]
      have hlen : (l.take pos ++ l.drop (pos + n)).length = (l.length + 2 ^ 32 - n) % 2 ^ 32 := by
        rw [List.length_append, htail, List.length_take]
        omega
      have hfront : l.take pos ++ l.drop (pos + n) <+: overwrite (l ++ 0 :: r) pos (l.drop (pos + n)) := by
        have hall : (l.drop (pos + n)).take ((l ++ 0 :: r).length - pos) = l.drop (pos + n) := by
          apply List.take_of_length_le
          simp only [List.length_append, List.length_drop]
          omega
        rw [overwrite, List.take_append_of_le_length hpos, hall]
        exact List.prefix_append _ _
      rw [if_neg hend, bind_ok hmove, ← hlen]
      refine resize_cut fresh ?_ h.min_lt (by rw [hlen]; omega) hfront
      show s.array_size = (overwrite _ _ _).length
      rw [length_overwrite, h.array_size_eq]
      conv_lhs => rw [hr]
      rfl

/-- A text with another one put in has room in a buffer that was resized for both. -/
theorem Holds.inserted {r : Bytes} (h : Holds s l) (fresh : Nat → UInt8) (pos : Nat)
    (hpos : 0 < l.length + d.length ∨ 0 < s.min_size)
    (hlen : l.length + d.length + 1 + r.length = s.rounded (l.length + d.length)) :
    Holds ((s.resized fresh (l.length + d.length)).withBuffer ((l.take pos ++ d ++ l.drop pos) ++ 0 :: r))
      (l.take pos ++ d ++ l.drop pos) := by
  refine .of_resized h.min_lt hpos ?_ ?_
  · simp only [List.length_append, List.length_take, List.length_drop]
    omega
  · rw [← hlen]
    simp only [List.length_append, List.length_take, List.length_drop, List.length_cons]
    omega

/-- What `memmove` and `memcpy` leave where a text goes in before the end. -/
theorem insert_inside {g r : Bytes} (hle : pos ≤ l.length) (hg : g.length = d.length) :
    (memmove (pos + d.length) pos (l.length - pos) >>= fun _ => memcpy pos d) (s.withBuffer (l ++ (g ++ 0 :: r))) =
      (.ok (), s.withBuffer ((l.take pos ++ d ++ l.drop pos) ++ 0 :: r)) := by
  have hbuflen : (l ++ (g ++ 0 :: r)).length = l.length + d.length + 1 + r.length := by
    simp only [List.length_append, List.length_cons]
    omega
  obtain ⟨x, hx, hover⟩ := overwrite_shift l g (0 :: r) hle
  rw [← Nat.add_sub_cancel' hle, hg] at hover
  have hcopy : overwrite (l.take pos ++ (x ++ (l.drop pos ++ 0 :: r))) pos d =
      (l.take pos ++ d ++ l.drop pos) ++ 0 :: r := by
    rw [overwrite_middle (by rw [List.length_take]; omega) (by omega)]
    simp only [List.append_assoc]
  rw [bind_ok (memmove_eq (by omega)), hover, memcpy_eq ?_, hcopy]
  simp only [List.length_append, List.length_take, List.length_drop, List.length_cons]
  omega

/-- The text `d` goes in between what stands before and behind `pos`. -/
theorem Holds.insert_spec (h : Holds s l) (fresh : Nat → UInt8) (pos : Nat) (hfew : l.length + d.length < 2 ^ 31) :
    ∃ s', insert fresh pos d s = (.ok (), s') ∧ Holds s' (l.take pos ++ d ++ l.drop pos) := by
  have hsize : d.length % 2 ^ 32 = d.length := Nat.mod_eq_of_lt (by omega)
  have hsum : (l.length + d.length) % 2 ^ 32 = l.length + d.length := Nat.mod_eq_of_lt (by omega)
  unfold insert
  rw [get_bind, h.length_eq, hsize, hsum]
  by_cases hempty : 0 < l.length + d.length ∨ 0 < s.min_size
  · obtain ⟨g, r, hres, hg, -, hlen⟩ := h.resize_grows fresh (Nat.le_add_right _ _) (by omega) hempty
    have hgd : g.length = d.length := by omega
    have hbuflen : (l ++ (g ++ 0 :: r)).length = l.length + d.length + 1 + r.length := by
      simp only [List.length_append, List.length_cons]
      omega
    have hdone := h.inserted fresh pos hempty (hbuflen.symm.trans hlen)
    rw [bind_ok hres, List.take_length]
    split
    next hzero =>
      subst hzero
      have hfront := insert_inside (s := s.resized fresh (l.length + d.length)) (r := r) (Nat.zero_le l.length) hgd
      rw [Nat.zero_add, Nat.sub_zero] at hfront
      exact ⟨_, hfront, hdone⟩
    next hzero =>
      split
      next hend =>
        have hover : overwrite (l ++ (g ++ 0 :: r)) l.length d = (l.take pos ++ d ++ l.drop pos) ++ 0 :: r := by
          rw [overwrite_middle rfl hgd, List.take_of_length_le hend, List.drop_eq_nil_of_le hend, List.append_nil,
            List.append_assoc]
        rw [memcpy_eq (by omega), hover]
        exact ⟨_, rfl, hdone⟩
      next hend => exact ⟨_, insert_inside (by omega) hgd, hdone⟩
  · obtain rfl : l = [] := List.eq_nil_of_length_eq_zero (by omega)
    obtain rfl : d = [] := List.eq_nil_of_length_eq_zero (by omega)
    rw [bind_ok (h.resize_spec fresh (by decide))]
    refine ⟨s.resized fresh 0, ?_, ?_⟩
    · split
      next => rfl
      next =>
        split
        next => rfl
        next hend => exact absurd (Nat.zero_le pos) hend
    · rw [List.take_nil, List.drop_nil]
      exact .of_null (by omega)

/-- As for a text, where the terminator, that comes out of the buffer, is moved too. -/
theorem insertChar_inside {r : Bytes} (hle : pos ≤ l.length) :
    (memmove (pos + 1) pos (l.length - pos + 1) >>= fun _ => write pos c) (s.withBuffer (l ++ ([0] ++ 0 :: r))) =
      (.ok (), s.withBuffer ((l.take pos ++ [c] ++ l.drop pos) ++ 0 :: r)) := by
  have hbuflen : (l ++ ([0] ++ 0 :: r)).length = l.length + 2 + r.length := by
    simp only [List.length_append, List.length_cons, List.length_nil]
    omega
  obtain ⟨x, hx, hover⟩ := overwrite_shift (l ++ [0]) [0] r (show pos ≤ (l ++ [0]).length by simp; omega)
  obtain ⟨x₀, rfl⟩ := List.length_eq_one_iff.mp hx
  have hbuf : l ++ ([0] ++ 0 :: r) = l ++ [0] ++ ([0] ++ r) := by simp
  have hend : (l ++ [0]).length = pos + (l.length - pos + 1) := by
    rw [List.length_append, List.length_singleton]
    omega
  rw [hend, ← hbuf, List.length_singleton, List.take_append_of_le_length hle,
    List.drop_append_of_le_length hle] at hover
  have hset : (l.take pos ++ ([x₀] ++ (l.drop pos ++ [0] ++ r))).set pos c =
      (l.take pos ++ [c] ++ l.drop pos) ++ 0 :: r := by
    rw [List.set_append_right _ _ (by rw [List.length_take]; omega), List.length_take,
      Nat.min_eq_left hle, Nat.sub_self]
    simp
  rw [bind_ok (memmove_eq (by omega)), hover, write_eq ?_, hset]
  simp only [List.length_append, List.length_take, List.length_drop, List.length_cons]
  omega

/-- As for a text, but the terminator comes out of the buffer: it is there unless the string was `EMPTY`. -/
theorem Holds.insertChar_spec (h : Holds s l) (fresh : Nat → UInt8) (hfew : l.length + 1 < 2 ^ 31)
    (hsafe : s.str.isSome ∨ 0 < pos) :
    ∃ s', insertChar fresh pos c s = (.ok (), s') ∧ Holds s' (l.take pos ++ [c] ++ l.drop pos) := by
  have hsum : (l.length + 1) % 2 ^ 32 = l.length + 1 := Nat.mod_eq_of_lt (by omega)
  obtain ⟨g, r, hres, hg, hzero, hlen⟩ := h.resize_grows fresh (Nat.le_succ _) (by omega) (.inl (Nat.succ_pos _))
  obtain ⟨g₀, rfl⟩ := List.length_eq_one_iff.mp (by omega : g.length = 1)
  have hbuflen : (l ++ ([g₀] ++ 0 :: r)).length = l.length + 1 + 1 + r.length := by
    simp only [List.length_append, List.length_cons, List.length_nil]
    omega
  have hdone := h.inserted (d := [c]) fresh pos (.inl (Nat.succ_pos _)) (hbuflen.symm.trans hlen)
  have hinside : s.str.isSome → pos ≤ l.length →
      (memmove (pos + 1) pos (l.length - pos + 1) >>= fun _ => write pos c)
        ((s.resized fresh (l.length + 1)).withBuffer (l ++ ([g₀] ++ 0 :: r))) =
      (.ok (), (s.resized fresh (l.length + 1)).withBuffer ((l.take pos ++ [c] ++ l.drop pos) ++ 0 :: r)) := by
    intro hs hle
    obtain rfl : g₀ = 0 := hzero hs g₀ rfl
    exact insertChar_inside hle
  unfold insertChar
  rw [get_bind, h.length_eq, hsum, bind_ok hres]
  split
  next hpos =>
    subst hpos
    have hfront := hinside (hsafe.resolve_right (Nat.lt_irrefl 0)) (Nat.zero_le _)
    rw [Nat.zero_add, Nat.sub_zero] at hfront
    exact ⟨_, hfront, hdone⟩
  next hpos =>
    split
    next hend =>
      have hset : (l ++ ([g₀] ++ 0 :: r)).set l.length c = (l.take pos ++ [c] ++ l.drop pos) ++ 0 :: r := by
        rw [List.set_append_right _ _ (Nat.le_refl _), Nat.sub_self, List.take_of_length_le hend,
          List.drop_eq_nil_of_le hend]
        simp
      rw [write_eq (by omega), hset]
      exact ⟨_, rfl, hdone⟩
    next hend =>
      have hs : s.str.isSome := by
        by_contra hs
        rw [(h.empty_iff.mp (by simpa using hs)).1] at hend
        exact hend (Nat.zero_le _)
      exact ⟨_, hinside hs (by omega), hdone⟩

end Str

end Srl
