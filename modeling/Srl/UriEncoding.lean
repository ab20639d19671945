import Srl.Uri

namespace Srl

open Bytes

namespace Bytes

theorem replaceChar_of_not_mem {s : Bytes} (hs : ∀ c ∈ s, c ≠ 0) {c₁ c₂ : UInt8} (h : c₁ ∉ s) :
    s.replaceChar c₁ c₂ = s := by
  have hmap : s.map (fun c => if c = c₁ then c₂ else c) = s.map id := by
    apply List.map_congr_left
    intro c hc
    have hne : c ≠ c₁ := fun he => h (he ▸ hc)
    exact if_neg hne
  rw [replaceChar_eq_map hs, hmap, List.map_id]

/-- A replacement by a character that the string lacks can be taken back. -/
theorem replaceChar_replaceChar {s : Bytes} (hs : ∀ c ∈ s, c ≠ 0) {c₁ c₂ : UInt8} (h : c₂ ∉ s)
    (hz : c₂ ≠ 0) : (s.replaceChar c₁ c₂).replaceChar c₂ c₁ = s := by
  have hs' : ∀ c ∈ s.replaceChar c₁ c₂, c ≠ 0 := by
    rw [replaceChar_eq_map hs]
    intro c hc
    obtain ⟨d, hd, rfl⟩ := List.mem_map.mp hc
    split
    next => exact hz
    next => exact hs d hd
  have hmap : (s.map fun c => if c = c₁ then c₂ else c).map (fun c => if c = c₂ then c₁ else c) =
      s.map id := by
    rw [List.map_map]
    apply List.map_congr_left
    intro c hc
    have hc₂ : c ≠ c₂ := fun he => h (he ▸ hc)
    by_cases hc₁ : c = c₁
    · simp [hc₁]
    · simp [hc₁, hc₂]
  rw [replaceChar_eq_map hs', replaceChar_eq_map hs, hmap, List.map_id]

theorem add_of_ne {s : Bytes} {c : UInt8} (h : c ≠ 0) : s.add c = s ++ [c] := if_neg h

/-- A digit of `HEX` is no character that the encoding gives a meaning to. -/
theorem charAt_HEX {n : Nat} (h : n < 16) :
    48 ≤ charAt HEX n ∧ unHexDigit (charAt HEX n) = some (UInt8.ofNat n) :=
  (by decide : ∀ n < 16, 48 ≤ charAt HEX n ∧ unHexDigit (charAt HEX n) = some (UInt8.ofNat n)) n h

theorem charAt_HEX_ne {n : Nat} (h : n < 16) : charAt HEX n ≠ 0 := by
  intro he
  have := (charAt_HEX h).1
  rw [he] at this
  exact absurd this (by decide)

theorem high_lt (c : UInt8) : (c >>> 4).toNat < 16 := by
  have := c.toNat_lt
  rw [UInt8.toNat_shiftRight, Nat.shiftRight_eq_div_pow]
  simp
  omega

theorem low_lt (c : UInt8) : (c &&& 15).toNat < 16 := by
  rw [UInt8.toNat_and]
  exact Nat.lt_succ_of_le Nat.and_le_right

theorem halves (c : UInt8) : (c >>> 4) * 16 + (c &&& 15) = c := by
  apply UInt8.toNat_inj.mp
  have hc := c.toNat_lt
  have hhigh : (c >>> 4).toNat = c.toNat / 16 := by
    rw [UInt8.toNat_shiftRight, Nat.shiftRight_eq_div_pow]
    rfl
  have hlow : (c &&& 15).toNat = c.toNat % 16 := by
    rw [UInt8.toNat_and]
    exact Nat.and_two_pow_sub_one_eq_mod c.toNat 4
  rw [UInt8.toNat_add, UInt8.toNat_mul, hhigh, hlow]
  show (c.toNat / 16 * 16 % 256 + c.toNat % 16) % 256 = c.toNat
  omega

/-- `UnHex` reads what `Hex` writes. -/
theorem unHex_hex (c : UInt8) :
    unHex (charAt HEX (c >>> 4).toNat) (charAt HEX (c &&& 15).toNat) = c := by
  rw [unHex, (charAt_HEX (high_lt c)).2, (charAt_HEX (low_lt c)).2, UInt8.ofNat_toNat,
    UInt8.ofNat_toNat]
  exact halves c

end Bytes

namespace URI

/-- What `Encode` writes for a character. -/
def encoding (exclude : Bytes) (c : UInt8) : Bytes :=
  if ShouldEncode c exclude then [37, charAt HEX (c >>> 4).toNat, charAt HEX (c &&& 15).toNat] else [c]

theorem encodeChar_eq {exclude : Bytes} {c : UInt8} (hc : c ≠ 0) (output : Bytes) :
    encodeChar exclude output c = output ++ encoding exclude c := by
  unfold encodeChar encoding
  split
  next =>
    rw [hex, add_of_ne (by decide : (37 : UInt8) ≠ 0), add_of_ne (charAt_HEX_ne (high_lt c)),
      add_of_ne (charAt_HEX_ne (low_lt c))]
    simp
  next => exact add_of_ne hc

theorem Encode_eq {exclude s : Bytes} (hs : ∀ c ∈ s, c ≠ 0) (output : Bytes) :
    Encode s output exclude = output ++ s.flatMap (encoding exclude) := by
  induction s generalizing output with
  | nil => simp [Encode]
  | cons c s ih =>
    have hstep : Encode (c :: s) output exclude = Encode s (encodeChar exclude output c) exclude := rfl
    rw [hstep, ih (fun x hx => hs x (by simp [hx])), encodeChar_eq (hs c (by simp)), List.flatMap_cons,
      List.append_assoc]

/-- A character that is written as it is belongs to a list or is no reserved one. -/
theorem mem_of_not_ShouldEncode {exclude : Bytes} {c : UInt8} (h : ShouldEncode c exclude = false)
    (hc : c = 37 ∨ c = 38 ∨ c = 43) : c ∈ exclude := by
  have hfind : (exclude.find c 0).isSome := by
    obtain rfl | rfl | rfl := hc
    all_goals simpa [ShouldEncode] using h
  by_contra hmem
  have hnone : exclude.find c 0 = none := by
    apply find_eq_none (by obtain rfl | rfl | rfl := hc <;> decide)
    intro x hx he
    exact hmem (he ▸ hx)
  rw [hnone] at hfind
  simp at hfind

theorem mem_encoding {exclude : Bytes} {c x : UInt8} (hx : x ∈ encoding exclude c) :
    x = 37 ∨ 48 ≤ x ∨ x = c ∧ ShouldEncode c exclude = false := by
  unfold encoding at hx
  split at hx
  next =>
    obtain rfl | rfl | rfl : x = 37 ∨ x = charAt HEX (c >>> 4).toNat ∨ x = charAt HEX (c &&& 15).toNat := by
      simpa using hx
    · exact Or.inl rfl
    · exact Or.inr (Or.inl (charAt_HEX (high_lt c)).1)
    · exact Or.inr (Or.inl (charAt_HEX (low_lt c)).1)
  next h => exact Or.inr (Or.inr ⟨by simpa using hx, by simpa using h⟩)

/-- The reserved characters of an encoded text are excluded ones. -/
theorem encoding_ne {exclude : Bytes} {c x : UInt8} (hc : c ≠ 0) (hx : x ∈ encoding exclude c) :
    x ≠ 0 ∧ (x = 38 ∨ x = 43 → x ∈ exclude) := by
  obtain rfl | hx | ⟨rfl, h⟩ := mem_encoding hx
  · exact ⟨by decide, fun he => absurd he (by decide)⟩
  · refine ⟨?_, ?_⟩
    · rintro rfl
      exact absurd hx (by decide)
    · rintro (rfl | rfl)
      all_goals exact absurd hx (by decide)
  · exact ⟨hc, fun he => mem_of_not_ShouldEncode h (by tauto)⟩

theorem decodeLoop_cons {c : UInt8} (hc : c ≠ 37) (input output : Bytes) :
    decodeLoop (c :: input) output = decodeLoop input (output.add c) := by
  rw [decodeLoop]
  intro _ _ _ he
  exact absurd he hc

/-- The decoder reads one encoded character. -/
theorem decodeLoop_encoding {exclude : Bytes} {c : UInt8} (hc : c ≠ 0) (hpercent : 37 ∉ exclude)
    (input output : Bytes) :
    decodeLoop (encoding exclude c ++ input) output = decodeLoop input (output ++ [c]) := by
  unfold encoding
  split
  next =>
    rw [List.cons_append, List.cons_append, List.cons_append, List.nil_append, decodeLoop, unHex_hex,
      add_of_ne hc]
  next h =>
    have hne : c ≠ 37 := fun he => hpercent (he ▸ mem_of_not_ShouldEncode (by simpa using h) (.inl he))
    rw [List.singleton_append, decodeLoop_cons hne, add_of_ne hc]

theorem decodeLoop_flatMap {exclude s : Bytes} (hs : ∀ c ∈ s, c ≠ 0) (hpercent : 37 ∉ exclude)
    (output : Bytes) : decodeLoop (s.flatMap (encoding exclude)) output = output ++ s := by
  induction s generalizing output with
  | nil => simp [decodeLoop]
  | cons c s ih =>
    rw [List.flatMap_cons, decodeLoop_encoding (hs c (by simp)) hpercent,
      ih (fun x hx => hs x (by simp [hx])), List.append_assoc, List.singleton_append]

/-- What `addQueryField` writes for any value, `NUL`s included, keeps clear of the delimiters. -/
theorem Encode_clear (value : Bytes) {exclude : Bytes} (hexclude : 38 ∉ exclude) (output : Bytes)
    (houtput : ∀ x ∈ output, x ≠ 0 ∧ x ≠ 38) : ∀ x ∈ Encode value output exclude, x ≠ 0 ∧ x ≠ 38 := by
  induction value generalizing output with
  | nil => exact houtput
  | cons c value ih =>
    apply ih (encodeChar exclude output c)
    by_cases hc : c = 0
    · have hkeep : encodeChar exclude output c = output := by
        rw [hc]
        simp [encodeChar, ShouldEncode, find, add]
      rwa [hkeep]
    · rw [encodeChar_eq hc]
      intro x hx
      obtain hx | hx := List.mem_append.mp hx
      · exact houtput x hx
      · obtain ⟨hz, hmem⟩ := encoding_ne hc hx
        refine ⟨hz, ?_⟩
        rintro rfl
        exact hexclude (hmem (Or.inl rfl))

theorem encodedValue_clear (value : Bytes) : ∀ x ∈ encodedValue value, x ≠ 0 ∧ x ≠ 38 := by
  have hclear := Encode_clear value (by decide : 38 ∉ bytes " .~_-") [] (by simp)
  unfold encodedValue
  rw [replaceChar_eq_map fun x hx => (hclear x hx).1]
  intro x hx
  obtain ⟨c, hc, rfl⟩ := List.mem_map.mp hx
  split
  next => decide
  next => exact hclear c hc

end URI

end Srl
