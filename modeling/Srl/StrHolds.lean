import Srl.Str

namespace Srl

open Cells Session

namespace Str

variable {s t : Str} {l b : Bytes} {n i j : Nat} {c : UInt8} {fresh : Nat → UInt8}

/-- The text that a string stores, and what its fields say about each other. -/
structure Holds (s : Str) (l : Bytes) : Prop where
  length_eq : s.string_length = l.length
  array_size_eq : s.array_size = s.buffer.length
  terminated : s.str.isSome → l ++ [0] <+: s.buffer
  empty_iff : s.str = none ↔ l = [] ∧ s.min_size = 0
  min_lt : s.min_size + 16 < 2 ^ 32

/-- The same string with another buffer. -/
def withBuffer (s : Str) (b : Bytes) : Str := { s with str := some b }

theorem withBuffer_isSome (s : Str) (b : Bytes) : (s.withBuffer b).str.isSome = true := rfl

theorem withBuffer_buffer (h : s.str.isSome) : s.withBuffer s.buffer = s := by
  obtain ⟨b, hb⟩ := Option.isSome_iff_exists.mp h
  rw [withBuffer, buffer, hb, Option.getD_some, ← hb]

theorem write_lt (h : i < s.buffer.length) : write i c s = (.ok (), s.withBuffer (s.buffer.set i c)) := by
  unfold write
  rw [get_bind, if_pos h]
  rfl

theorem write_eq (h : i < b.length) : write i c (s.withBuffer b) = (.ok (), s.withBuffer (b.set i c)) :=
  write_lt h

theorem memcpy_eq {data : Bytes} (h : i + data.length ≤ b.length) :
    memcpy i data (s.withBuffer b) = (.ok (), s.withBuffer (overwrite b i data)) := by
  unfold memcpy
  rw [get_bind]
  split
  next hd =>
    rw [hd, overwrite_nil]
    rfl
  next =>
    rw [if_pos (show i + data.length ≤ (s.withBuffer b).buffer.length from h)]
    rfl

theorem memmove_eq (h : max j i + n ≤ b.length) :
    memmove j i n (s.withBuffer b) = (.ok (), s.withBuffer (overwrite b j (window b i (i + n)))) := by
  unfold memmove
  rw [get_bind]
  split
  next hn =>
    rw [hn, Nat.add_zero, window_self, overwrite_nil]
    rfl
  next =>
    rw [if_pos (show max j i + n ≤ (s.withBuffer b).buffer.length from h)]
    rfl

/-- The string after a resize. -/
def resized (fresh : Nat → UInt8) (s : Str) (n : Nat) : Str :=
  if 0 < n ∨ 0 < s.min_size then
    { s with
      hash_value := 0, string_length := n, array_size := s.rounded n,
      str := some ((realloc s.buffer (s.rounded n) fresh).set n 0) }
  else { s with hash_value := 0, string_length := n, array_size := 0, str := none }

theorem lt_rounded (hn : n + 16 < 2 ^ 32) (hm : s.min_size + 16 < 2 ^ 32) : n < s.rounded n := by
  have hlt : n ≤ if n < s.min_size then s.min_size else n := by
    split <;> omega
  apply Nat.lt_of_le_of_lt hlt
  apply @lt_roundup _ 4 (by decide)
  split <;> assumption

theorem resize_eq (fresh : Nat → UInt8) (ha : s.array_size = s.buffer.length) (hn : n + 16 < 2 ^ 32)
    (hm : s.min_size + 16 < 2 ^ 32) : resize fresh n s = (.ok (), s.resized fresh n) := by
  have hr := lt_rounded hn hm
  unfold resize resized
  rw [modify_bind, get_bind]
  dsimp only
  by_cases hpos : 0 < n ∨ 0 < s.min_size
  · rw [if_pos hpos, if_pos hpos]
    have hrounded : rounded { s with hash_value := 0, string_length := n } n = s.rounded n := rfl
    rw [hrounded]
    by_cases hsame : s.rounded n = s.array_size
    · rw [if_pos hsame, write_lt (by show n < s.buffer.length; omega), hsame, ha, realloc_self, ← ha]
      rfl
    · let t : Str := { s with
        hash_value := 0, string_length := n, str := some (realloc s.buffer (s.rounded n) fresh) }
      have hwrite : write n 0 t = (.ok (), t.withBuffer (t.buffer.set n 0)) :=
        write_lt (by show n < (realloc _ _ _).length; rw [length_realloc]; exact hr)
      rw [if_neg hsame]
      show ((write n 0 >>= fun _ => modify fun s' => { s' with array_size := s.rounded n }) : Call Unit) t = _
      rw [bind_ok hwrite]
      rfl
  · rw [if_neg hpos, if_neg hpos]
    rfl

@[simp] theorem resized_string_length (fresh : Nat → UInt8) (s : Str) (n : Nat) :
    (s.resized fresh n).string_length = n := by
  unfold resized
  split <;> rfl

@[simp] theorem resized_min_size (fresh : Nat → UInt8) (s : Str) (n : Nat) :
    (s.resized fresh n).min_size = s.min_size := by
  unfold resized
  split <;> rfl

@[simp] theorem resized_hash_value (fresh : Nat → UInt8) (s : Str) (n : Nat) :
    (s.resized fresh n).hash_value = 0 := by
  unfold resized
  split <;> rfl

theorem resized_withBuffer_length (fresh : Nat → UInt8) (s : Str) (n : Nat) (b : Bytes) :
    ((s.resized fresh n).withBuffer b).string_length = n :=
  resized_string_length fresh s n

/-- A buffer of the size that a resize asked for, with a terminated text of the length it asked for. -/
theorem Holds.of_resized {r : Bytes} (hm : s.min_size + 16 < 2 ^ 32) (hpos : 0 < n ∨ 0 < s.min_size)
    (hn : l.length = n) (hlen : (l ++ 0 :: r).length = s.rounded n) :
    Holds ((s.resized fresh n).withBuffer (l ++ 0 :: r)) l := by
  subst hn
  refine ⟨resized_string_length fresh s _, ?_, fun _ => ⟨r, by simp [withBuffer, buffer]⟩, ⟨nofun, fun he => ?_⟩, ?_⟩
  · show (s.resized fresh l.length).array_size = (l ++ 0 :: r).length
    rw [resized, if_pos hpos, hlen]
  · have hmin : s.min_size = 0 := by
      rw [← resized_min_size fresh s l.length]
      exact he.2
    rw [he.1, hmin] at hpos
    exact absurd hpos (by decide)
  · show (s.resized fresh l.length).min_size + 16 < 2 ^ 32
    rwa [resized_min_size]

theorem Holds.of_null (hm : s.min_size = 0) : Holds (s.resized fresh 0) [] := by
  have hneg : ¬(0 < 0 ∨ 0 < s.min_size) := by omega
  have hr : s.resized fresh 0 = { s with hash_value := 0, string_length := 0, array_size := 0, str := none } := by
    rw [resized, if_neg hneg]
  rw [hr]
  exact ⟨rfl, rfl, nofun, ⟨fun _ => ⟨rfl, hm⟩, fun _ => rfl⟩, by show s.min_size + 16 < 2 ^ 32; omega⟩

/-- The buffer after a resize: the text goes on, then comes the terminator. -/
theorem resized_buffer (fresh : Nat → UInt8) (hpos : 0 < n ∨ 0 < s.min_size) (hr : n < s.rounded n) :
    (s.resized fresh n).str.isSome ∧ ∃ r, (s.resized fresh n).buffer =
      (realloc s.buffer (s.rounded n) fresh).take n ++ 0 :: r ∧
        (s.resized fresh n).buffer.length = s.rounded n := by
  have hbuf : (s.resized fresh n).buffer = (realloc s.buffer (s.rounded n) fresh).set n 0 := by
    rw [resized, if_pos hpos]
    rfl
  refine ⟨by rw [resized, if_pos hpos]; rfl, (realloc s.buffer (s.rounded n) fresh).drop (n + 1), ?_, ?_⟩
  · rw [hbuf, List.set_eq_take_append_cons_drop, if_pos (by rw [length_realloc]; exact hr)]
  · rw [hbuf, List.length_set, length_realloc]

namespace Holds

theorem prefix_realloc (h : Holds s l) (fresh : Nat → UInt8) (hl : l.length < n) :
    l <+: realloc s.buffer n fresh ∧ (s.str.isSome → l ++ [0] <+: realloc s.buffer n fresh) := by
  have hsome : s.str.isSome → l ++ [0] <+: realloc s.buffer n fresh := by
    intro hs
    obtain ⟨r, hr⟩ := h.terminated hs
    have hlen := congrArg List.length hr
    simp only [List.length_append, List.length_singleton] at hlen
    have htake : (realloc s.buffer n fresh).take (l.length + 1) = l ++ [0] := by
      rw [← window_zero, window_realloc fresh (by omega) (by omega), window_zero, ← hr]
      exact List.take_left' (by simp)
    rw [← htake]
    exact List.take_prefix _ _
  refine ⟨?_, hsome⟩
  by_cases hs : s.str.isSome
  · exact (List.prefix_append l [0]).trans (hsome hs)
  · have hnil : l = [] := (h.empty_iff.mp (by simpa using hs)).1
    rw [hnil]
    exact List.nil_prefix

/-- The buffer after a resize to more characters: the text, as many others as are new, and the terminator. -/
theorem grown (h : Holds s l) (fresh : Nat → UInt8) (hn : l.length ≤ n) (hpos : 0 < n ∨ 0 < s.min_size)
    (hr : n < s.rounded n) :
    ∃ g r, (s.resized fresh n).buffer = l ++ (g ++ 0 :: r) ∧ g.length = n - l.length ∧
      (s.str.isSome → ∀ c ∈ g.head?, c = 0) := by
  obtain ⟨-, r, hbuf, -⟩ := resized_buffer fresh hpos hr
  obtain ⟨⟨y, hy⟩, hzero⟩ := h.prefix_realloc fresh (Nat.lt_of_le_of_lt hn hr)
  have hlen := congrArg List.length hy
  rw [List.length_append, length_realloc] at hlen
  refine ⟨y.take (n - l.length), r, ?_, by rw [List.length_take]; omega, fun hs c hc => ?_⟩
  · rw [hbuf, ← hy, List.take_append, List.take_of_length_le hn, List.append_assoc]
  · obtain ⟨z, hz⟩ := hzero hs
    rw [← hy, List.append_assoc] at hz
    rw [← List.append_cancel_left hz] at hc
    obtain hn' | hn' := Nat.eq_zero_or_pos (n - l.length)
    · rw [hn'] at hc
      cases hc
    · obtain ⟨k, hk⟩ := Nat.exists_eq_succ_of_ne_zero (Nat.ne_of_gt hn')
      rw [hk] at hc
      exact (Option.some.inj hc).symm

theorem pos_or_min (h : Holds s l) (hs : s.str.isSome) : 0 < l.length ∨ 0 < s.min_size := by
  by_contra hneg
  have hnone : s.str = none := h.empty_iff.mpr ⟨List.eq_nil_of_length_eq_zero (by omega), by omega⟩
  rw [hnone] at hs
  cases hs

theorem resize_spec (h : Holds s l) (fresh : Nat → UInt8) (hn : n + 16 < 2 ^ 32) :
    resize fresh n s = (.ok (), s.resized fresh n) :=
  resize_eq fresh h.array_size_eq hn h.min_lt

end Holds

/-- A resize to at least as many characters. -/
theorem Holds.resize_grows (h : Holds s l) (fresh : Nat → UInt8) (hn : l.length ≤ n) (hfew : n + 16 < 2 ^ 32)
    (hpos : 0 < n ∨ 0 < s.min_size) :
    ∃ g r, resize fresh n s = (.ok (), (s.resized fresh n).withBuffer (l ++ (g ++ 0 :: r))) ∧
      g.length = n - l.length ∧ (s.str.isSome → ∀ c ∈ g.head?, c = 0) ∧
      (l ++ (g ++ 0 :: r)).length = s.rounded n := by
  have hr := lt_rounded hfew h.min_lt
  obtain ⟨g, r, hbuf, hg, hzero⟩ := h.grown fresh hn hpos hr
  obtain ⟨hsome, -, -, hlen⟩ := resized_buffer fresh hpos hr
  refine ⟨g, r, ?_, hg, hzero, by rw [← hbuf, hlen]⟩
  rw [h.resize_spec fresh hfew, ← hbuf, withBuffer_buffer hsome]

theorem Holds.append_spec (h : Holds s l) (fresh : Nat → UInt8) {d : Bytes} (hfew : l.length + d.length < 2 ^ 31)
    (hsafe : s.str.isSome ∨ d ≠ []) : ∃ s', append fresh d s = (.ok (), s') ∧ Holds s' (l ++ d) := by
  have hsum : (d.length + s.string_length) % 2 ^ 32 = l.length + d.length := by
    rw [h.length_eq]
    omega
  have hpos : 0 < l.length + d.length ∨ 0 < s.min_size := by
    rcases hsafe with hs | hd
    · have := h.pos_or_min hs
      omega
    · have := List.length_pos_of_ne_nil hd
      omega
  obtain ⟨g, r, hres, hg, -, hlen⟩ := h.resize_grows fresh (Nat.le_add_right _ _) (by omega) hpos
  have hindex : ∀ t, int32Index s.string_length t = (.ok l.length, t) := by
    intro t
    rw [int32Index, h.length_eq, if_pos (by omega)]
    rfl
  have hover : overwrite (l ++ (g ++ 0 :: r)) l.length d = (l ++ d) ++ 0 :: r := by
    rw [overwrite_middle rfl (by omega), List.append_assoc]
  have hfit : (l ++ (g ++ 0 :: r)).length = ((l ++ d) ++ 0 :: r).length := by
    rw [← hover, length_overwrite]
  have hsame : ((l ++ d) ++ 0 :: r).set (l.length + d.length) 0 = (l ++ d) ++ 0 :: r := by
    rw [← List.length_append, List.set_append_right _ _ (Nat.le_refl _), Nat.sub_self]
    rfl
  unfold append
  rw [get_bind, hsum, bind_ok hres, bind_ok (hindex _), bind_ok (memcpy_eq (by rw [hfit]; simp)), hover,
    get_bind, resized_withBuffer_length, write_eq (by simp), hsame]
  exact ⟨_, rfl, .of_resized h.min_lt hpos List.length_append (by rw [← hfit, hlen])⟩

end Str

end Srl
