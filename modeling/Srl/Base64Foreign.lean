import Srl.Base64RoundTrip
import Mathlib.Data.List.TakeWhile

namespace Srl

namespace Base64

/-- The copy that `decode` makes of its source. -/
def ownChars (s : Bytes) : Bytes := s.filter isBase64

/-- Whole groups, with the padding behind the other characters. -/
def WellPadded (t : Bytes) : Prop := t.length % 4 = 0 ∧ ∀ c ∈ t.dropWhile (· ≠ 61), c = 61

theorem ownChars_eq {s : Bytes} (h : ∀ c ∈ s, isBase64 c = true) : ownChars s = s :=
  List.filter_eq_self.mpr h

theorem WellPadded.pad_le {t : Bytes} (h : WellPadded t) {i j : Nat} (hij : i ≤ j) (hj : j < t.length)
    (hi : t[i]? = some 61) : t[j]? = some 61 := by
  have hsplit : t.takeWhile (· ≠ 61) ++ t.dropWhile (· ≠ 61) = t := List.takeWhile_append_dropWhile
  by_cases hk : i < (t.takeWhile (· ≠ 61)).length
  · rw [← hsplit, List.getElem?_append_left hk] at hi
    have := List.mem_takeWhile_imp (List.mem_of_getElem? hi)
    simp at this
  · have hlen := congrArg List.length hsplit
    rw [List.length_append] at hlen
    rw [← hsplit, List.getElem?_append_right (by omega),
      List.getElem?_eq_getElem (by omega)]
    exact congrArg some (h.2 _ (List.getElem_mem _))

/-- The padding of `t` stands where `s` has padding or has ended. -/
def Covers (s t : Bytes) : Prop := s.length ≤ t.length ∧ ∀ p < s.length, t[p]? = some 61 → s[p]? = some 61

theorem length_decodeRound (c₁ c₂ c₃ c₄ : UInt8) : (decodeRound c₁ c₂ c₃ c₄).length =
    1 + (if c₃ ≠ 61 then 1 else 0) + if c₄ ≠ 61 then 1 else 0 := by
  unfold decodeRound
  split <;> split <;> rfl

theorem mark_le {c d : UInt8} (h : d = 61 → c = 61) :
    (if c ≠ 61 then 1 else 0) ≤ if d ≠ 61 then 1 else 0 := by
  by_cases hd : d = 61
  · simp [h hd]
  · rw [if_pos hd]
    split <;> omega

theorem length_decode_pos {s : Bytes} (h : s ≠ []) : 0 < (decode s).length := by
  obtain _ | ⟨c₁, _ | ⟨c₂, _ | ⟨c₃, _ | ⟨c₄, s⟩⟩⟩⟩ := s
  · exact absurd rfl h
  all_goals simp [decode, decodeRound]

theorem length_decode_le {s t : Bytes} (hs : s.length % 4 = 0) (h : Covers s t) :
    (decode s).length ≤ (decode t).length ∧
      (s.length < t.length → (decode s).length < (decode t).length) := by
  induction s using decode.induct generalizing t with
  | case1 => exact ⟨Nat.zero_le _, fun ht => length_decode_pos (List.ne_nil_of_length_pos ht)⟩
  | case2 c₁ => simp at hs
  | case3 c₁ c₂ => simp at hs
  | case4 c₁ c₂ c₃ => simp at hs
  | case5 c₁ c₂ c₃ c₄ s ih =>
    obtain ⟨hlen, hpad⟩ := h
    obtain _ | ⟨d₁, _ | ⟨d₂, _ | ⟨d₃, _ | ⟨d₄, t⟩⟩⟩⟩ := t
    iterate 4 exact absurd hlen (by simp only [List.length_cons, List.length_nil]; omega)
    have hthird : d₃ = 61 → c₃ = 61 := by simpa using hpad 2 (by simp)
    have hfourth : d₄ = 61 → c₄ = 61 := by simpa using hpad 3 (by simp)
    have hrest : Covers s t := by
      refine ⟨by simpa using hlen, fun p hp ht => ?_⟩
      simpa using hpad (p + 4) (by simpa using hp) (by simpa using ht)
    obtain ⟨hle, hlt⟩ := ih (by simp only [List.length_cons] at hs; omega) hrest
    have hround : (decodeRound c₁ c₂ c₃ c₄).length ≤ (decodeRound d₁ d₂ d₃ d₄).length := by
      rw [length_decodeRound, length_decodeRound]
      have := mark_le hthird
      have := mark_le hfourth
      omega
    rw [decode, decode, List.length_append, List.length_append]
    refine ⟨by omega, fun ht => ?_⟩
    have := hlt (by simpa using ht)
    omega

theorem getElem?_ownChars {s : Bytes} {p : Nat} (h : s[p]? = some 61) :
    ∃ q ≤ p, (ownChars s)[q]? = some 61 := by
  have hp : p < s.length := (List.getElem?_eq_some_iff.mp h).1
  refine ⟨(ownChars (s.take p)).length, ?_, ?_⟩
  · have := List.length_filter_le isBase64 (s.take p)
    rw [List.length_take] at this
    unfold ownChars
    omega
  · have hsplit : ownChars s = ownChars (s.take p) ++ 61 :: ownChars (s.drop (p + 1)) := by
      have hs : s = s.take p ++ 61 :: s.drop (p + 1) := by
        rw [← (List.getElem?_eq_some_iff.mp h).2, List.getElem_cons_drop, List.take_append_drop]
      conv_lhs => rw [hs, ownChars, List.filter_append]
      rfl
    rw [hsplit, List.getElem?_append_right (Nat.le_refl _), Nat.sub_self]
    rfl

theorem covers_ownChars {s : Bytes} (h : WellPadded (ownChars s)) : Covers (ownChars s) s := by
  refine ⟨List.length_filter_le isBase64 s, fun p hp hs => ?_⟩
  obtain ⟨q, hq, ht⟩ := getElem?_ownChars hs
  exact h.pad_le hq hp ht

/-- A foreign character leaves more bytes than the text without it has. -/
theorem all_base64_of_decode_eq {s : Bytes} (h : WellPadded (ownChars s))
    (he : decode s = decode (ownChars s)) : ∀ c ∈ s, isBase64 c = true := by
  have hlen := List.length_filter_le isBase64 s
  by_cases hlt : (ownChars s).length < s.length
  · have := (length_decode_le h.1 (covers_ownChars h)).2 hlt
    rw [he] at this
    exact absurd this (Nat.lt_irrefl _)
  · apply List.filter_eq_self.mp
    exact List.filter_sublist.eq_of_length_le (by unfold ownChars at hlt; omega)

/-- A text of `encode` is one of the texts that the decoder is for. -/
theorem wellPadded_encode (s : Bytes) : WellPadded (encode s) := by
  refine ⟨by rw [length_encode]; omega, fun c hc => ?_⟩
  obtain ⟨text, k, he, -, ht⟩ := encode_split s
  have hdrop : text.dropWhile (· ≠ 61) = [] := by
    apply List.dropWhile_eq_nil_iff.mpr
    intro d hd
    have := ht d hd
    simp only [isDigit, Bool.and_eq_true] at this
    exact this.2
  rw [he, List.dropWhile_append, hdrop] at hc
  simp only [List.isEmpty_nil, if_true] at hc
  exact List.eq_of_mem_replicate ((List.dropWhile_sublist _).mem hc)

/-- The decoder reads its source and not the copy: foreign characters are harmless only where
there are none. -/
theorem decode_ownChars (s : Bytes) :
    ((∀ c ∈ s, isBase64 c = true) → decode s = decode (ownChars s)) ∧
      (WellPadded (ownChars s) →
        (decode s = decode (ownChars s) ↔ ∀ c ∈ s, isBase64 c = true)) ∧
      ∀ b, ownChars s = encode b → (decode s = b ↔ ∀ c ∈ s, isBase64 c = true) := by
  have hown : (∀ c ∈ s, isBase64 c = true) → decode s = decode (ownChars s) := fun h => by
    rw [ownChars_eq h]
  have hiff : WellPadded (ownChars s) →
      (decode s = decode (ownChars s) ↔ ∀ c ∈ s, isBase64 c = true) :=
    fun h => ⟨all_base64_of_decode_eq h, hown⟩
  refine ⟨hown, hiff, fun b hb => ?_⟩
  have := hiff (hb ▸ wellPadded_encode b)
  rwa [hb, decode_encode] at this

theorem decode_ownChars_lineBreak :
    ¬∀ s : Bytes, (∀ c ∈ s, c ≠ 0) → decode s = decode (ownChars s) := by
  intro h
  have := h (bytes "QUJD\nREVG") (by decide)
  exact absurd this (by decide)

/-- With padding in the middle the two texts can still agree by accident. -/
example : decode (bytes "!!==//=!!") = decode (ownChars (bytes "!!==//=!!")) := by decide

end Base64

end Srl
