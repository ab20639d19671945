import Srl.XmlCoding
import Srl.BytesFind

namespace Srl

namespace XML

open Bytes

/-- The control bytes that an encoding leaves out by design. -/
def isControl (c : UInt8) : Bool := (1 ≤ c && c ≤ 8) || (14 ≤ c && c ≤ 31)

def printable (s : Bytes) : Bytes := s.filter (!isControl ·)

def isSpecial (c : UInt8) : Bool := ENTITY.any (·.1 = c)

/-- The characters that `encode` writes in some way. -/
def encodable (s : Bytes) : Bytes := s.filter (encodeChar · ≠ [])

theorem encodeChar_cases (c : UInt8) :
    (∃ e ∈ ENTITY, e.1 = c ∧ encodeChar c = AMP :: e.2) ∨ (isSpecial c = false ∧ encodeChar c = []) ∨
      isSpecial c = false ∧ encodeChar c = [c] := by
  unfold encodeChar isSpecial
  cases he : ENTITY.find? (·.1 = c) with
  | some e =>
    have hc := List.find?_some he
    exact .inl ⟨e, List.mem_of_find?_eq_some he, by simpa using hc, rfl⟩
  | none =>
    have hany : ENTITY.any (·.1 = c) = false := by
      rw [List.any_eq_false]
      exact List.find?_eq_none.mp he
    refine .inr ?_
    dsimp only
    split
    next => exact .inl ⟨hany, rfl⟩
    next => exact .inr ⟨hany, rfl⟩

theorem find_entity {e : UInt8 × Bytes} (he : e ∈ ENTITY) (rest : Bytes) :
    ENTITY.find? (fun e' => e'.2.isPrefixOf (e.2 ++ rest)) = some e := by
  simp only [ENTITY, List.mem_cons, List.not_mem_nil, or_false] at he
  obtain rfl | rfl | rfl | rfl | rfl := he <;> rfl

theorem entity_ne_nil {e : UInt8 × Bytes} (he : e ∈ ENTITY) : e.2 ≠ [] := by
  revert e
  decide

theorem amp_special : isSpecial AMP = true := by decide

theorem encode_cons (c : UInt8) (s : Bytes) : encode (c :: s) = encodeChar c ++ encode s :=
  List.flatMap_cons

theorem decodeLoop_plain {c : UInt8} (hc : c ≠ AMP) (fuel : Nat) (rest : Bytes) :
    decodeLoop (fuel + 1) (c :: rest) = c :: decodeLoop fuel rest := by
  rw [decodeLoop, if_neg fun h => hc h.1]

theorem decodeLoop_entity {e : UInt8 × Bytes} (he : e ∈ ENTITY) (fuel : Nat) (rest : Bytes) :
    decodeLoop (fuel + 1) (AMP :: (e.2 ++ rest)) = e.1 :: decodeLoop fuel rest := by
  have hne : e.2 ++ rest ≠ [] := by simp [entity_ne_nil he]
  rw [decodeLoop, if_pos ⟨rfl, hne⟩, find_entity he]
  dsimp only
  rw [List.drop_left]

theorem decodeLoop_encode {s : Bytes} {fuel : Nat} (h : (encode s).length ≤ fuel) :
    decodeLoop fuel (encode s) = encodable s := by
  induction s generalizing fuel with
  | nil => cases fuel <;> rfl
  | cons c s ih =>
    rw [encode_cons, List.length_append] at h
    rw [encode_cons, encodable, List.filter_cons]
    rcases encodeChar_cases c with ⟨e, he, rfl, hc⟩ | ⟨-, hc⟩ | ⟨hspecial, hc⟩
    · rw [hc, List.length_cons] at h
      obtain ⟨fuel, rfl⟩ : ∃ n, fuel = n + 1 := ⟨fuel - 1, by omega⟩
      rw [hc, List.cons_append, decodeLoop_entity he, ih (by omega)]
      simp [encodable]
    · rw [hc, List.nil_append, ih (by simpa [hc] using h)]
      simp [encodable]
    · have hamp : c ≠ AMP := by
        rintro rfl
        rw [amp_special] at hspecial
        cases hspecial
      rw [hc, List.length_singleton] at h
      obtain ⟨fuel, rfl⟩ : ∃ n, fuel = n + 1 := ⟨fuel - 1, by omega⟩
      rw [hc, List.singleton_append, decodeLoop_plain hamp, ih (by omega)]
      simp [encodable]

/-- The loop copies what stands in front of the first `&`. -/
theorem decodeLoop_append {s : Bytes} (hs : ∀ c ∈ s, c ≠ AMP) (fuel : Nat) (t : Bytes) :
    decodeLoop (s.length + fuel) (s ++ t) = s ++ decodeLoop fuel t := by
  induction s with
  | nil => simp
  | cons c s ih =>
    have hlen : (c :: s).length + fuel = (s.length + fuel) + 1 := by
      rw [List.length_cons]
      omega
    rw [hlen, List.cons_append, decodeLoop_plain (hs c List.mem_cons_self),
      ih fun d hd => hs d (List.mem_cons_of_mem _ hd), List.cons_append]

theorem encode_ne_zero (s : Bytes) : ∀ d ∈ encode s, d ≠ 0 ∧ d < 128 := by
  intro d hd
  obtain ⟨c, -, hc⟩ := List.mem_flatMap.mp hd
  have key : ∀ n < 256, ∀ d ∈ encodeChar (UInt8.ofNat n), d ≠ 0 ∧ d < 128 := by decide +kernel
  exact key c.toNat c.toNat_lt d (by rwa [UInt8.ofNat_toNat])

theorem head_encode (s : Bytes) :
    (encode s).head? = some AMP ↔ ((encodable s).head?.any isSpecial) = true := by
  induction s with
  | nil => exact ⟨nofun, nofun⟩
  | cons c s ih =>
    rw [encode_cons, encodable, List.filter_cons]
    rcases encodeChar_cases c with ⟨e, he, rfl, hc⟩ | ⟨-, hc⟩ | ⟨hspecial, hc⟩
    · have hany : isSpecial e.1 = true := List.any_eq_true.mpr ⟨e, he, by simp⟩
      simp [hc, hany]
    · simpa [hc, encodable] using ih
    · have hamp : c ≠ AMP := by
        rintro rfl
        rw [amp_special] at hspecial
        cases hspecial
      simp [hc, hspecial, hamp]

/-- An entity at the front is seen twice: undecoded as the text in front of the first `&`, and by
the loop. -/
theorem decode_encode (s : Bytes) :
    decode (encode s) = (if (encodable s).head?.any isSpecial then encode s else []) ++ encodable s := by
  have hplain := fun d hd => (encode_ne_zero s d hd).1
  by_cases hamp : AMP ∈ encode s
  · obtain ⟨pre, post, hs, hpre⟩ := List.eq_append_cons_of_mem hamp
    have hfree : ∀ c ∈ pre, c ≠ AMP := fun c hc he => hpre (he ▸ hc)
    have hfind : (encode s).find AMP 0 = some pre.length := by
      rw [@find_eq (encode s) pre post AMP 0 hs (by decide) fun x hx =>
        ⟨hfree x hx, hplain x (hs ▸ List.mem_append_left _ hx)⟩,
        Nat.zero_add]
    have hloop : pre ++ decodeLoop (encode s).length (AMP :: post) = encodable s := by
      rw [← decodeLoop_append hfree, ← hs]
      exact decodeLoop_encode (by omega)
    have hdrop : (encode s).drop pre.length = AMP :: post := by
      rw [hs, List.drop_left]
    rw [decode, hfind]
    dsimp only
    rw [hdrop]
    cases pre with
    | nil =>
      have hhead : ((encodable s).head?.any isSpecial) = true := (head_encode s).mp (by rw [hs]; rfl)
      rw [if_pos hhead, List.length_nil, ofText, if_pos rfl, cstr_of_ne hplain]
      exact congrArg (encode s ++ ·) hloop
    | cons c pre =>
      have hhead : ¬((encodable s).head?.any isSpecial) = true := by
        rw [← head_encode, hs]
        simpa using hfree c List.mem_cons_self
      rw [if_neg hhead, ofText, if_neg (by simp), List.nil_append, ← hloop]
      congr 1
      rw [hs, List.take_left]
  · have hfree : ∀ c ∈ encode s, c ≠ AMP := fun c hc he => hamp (he ▸ hc)
    have hhead : ¬((encodable s).head?.any isSpecial) = true := by
      rw [← head_encode]
      exact fun h => hamp (List.mem_of_head? h)
    have hloop := decodeLoop_append hfree 0 []
    rw [List.append_nil, decodeLoop_encode (by omega)] at hloop
    rw [decode_of_plain hfree, if_neg hhead, hloop]
    simp [decodeLoop]

theorem encodable_char {c : UInt8} (hc : c ≠ 0) :
    (c < 128 → ((encodeChar c ≠ []) ↔ isControl c = false)) ∧
      (¬c < 128 → encodeChar c = [] ∧ isControl c = false) := by
  have key : ∀ n < 256, UInt8.ofNat n ≠ 0 →
      (UInt8.ofNat n < 128 → ((encodeChar (UInt8.ofNat n) ≠ []) ↔ isControl (UInt8.ofNat n) = false)) ∧
        (¬UInt8.ofNat n < 128 → encodeChar (UInt8.ofNat n) = [] ∧ isControl (UInt8.ofNat n) = false) := by
    decide +kernel
  have := key c.toNat c.toNat_lt
  rw [UInt8.ofNat_toNat] at this
  exact this hc

theorem encodable_eq {s : Bytes} (h0 : ∀ c ∈ s, c ≠ 0) (h : ∀ c ∈ s, c < 128) :
    encodable s = printable s := by
  apply List.filter_congr
  intro c hc
  rw [Bool.eq_iff_iff, decide_eq_true_eq, Bool.not_eq_true']
  exact (encodable_char (h0 c hc)).1 (h c hc)

/-- The round trip needs plain ASCII, and a text that does not begin with an entity. -/
theorem decode_encode_iff {s : Bytes} (h0 : ∀ c ∈ s, c ≠ 0) :
    decode (encode s) = printable s ↔
      (∀ c ∈ s, c < 128) ∧ ∀ c, (printable s).head? = some c → isSpecial c = false := by
  rw [decode_encode]
  by_cases hascii : ∀ c ∈ s, c < 128
  · rw [encodable_eq h0 hascii]
    constructor
    · intro h
      refine ⟨hascii, fun c hc => ?_⟩
      by_contra hspecial
      rw [if_pos (by simpa [hc] using hspecial)] at h
      have hnil : encode s = [] := List.append_left_eq_self.mp h
      have hhead := (head_encode s).mpr (by rw [encodable_eq h0 hascii, hc]; simpa using hspecial)
      rw [hnil] at hhead
      cases hhead
    · rintro ⟨-, h⟩
      rw [if_neg, List.nil_append]
      cases hc : (printable s).head? with
      | none => simp
      | some c => simp [h c hc]
  · refine ⟨fun h => absurd (fun c hc => ?_) hascii, fun h => absurd h.1 hascii⟩
    by_contra hhigh
    have hmem : c ∈ printable s := by
      apply List.mem_filter.mpr
      exact ⟨hc, by simp [((encodable_char (h0 c hc)).2 hhigh).2]⟩
    rw [← h] at hmem
    rcases List.mem_append.mp hmem with hm | hm
    · split at hm
      next => exact hhigh (encode_ne_zero s c hm).2
      next => cases hm
    · have := (List.mem_filter.mp hm).2
      simp [((encodable_char (h0 c hc)).2 hhigh).1] at this

theorem decode_encode_inner :
    decode (encode (bytes "a<b\x01&amp;")) = printable (bytes "a<b\x01&amp;") :=
  (decode_encode_iff (s := bytes "a<b\x01&amp;") (by decide)).mpr ⟨by decide, fun c hc => by cases hc; decide⟩

theorem decode_encode_first : ¬∀ s : Bytes, (∀ c ∈ s, c ≠ 0) → decode (encode s) = printable s := by
  intro h
  have := h (bytes "<a") (by decide)
  exact absurd this (by decide)

end XML

end Srl
