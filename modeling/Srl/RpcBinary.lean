import Srl.RpcReader

namespace Srl

open Bytes XML XML.Parser

namespace Base64

set_option maxRecDepth 4000 in
theorem encodeChar_plain (u : UInt8) :
    (encodeChar u ≠ 60 ∧ encodeChar u ≠ 0) ∧ isspace (encodeChar u) = false := by
  have key : ∀ n < 256, (encodeChar (UInt8.ofNat n) ≠ 60 ∧ encodeChar (UInt8.ofNat n) ≠ 0) ∧
      isspace (encodeChar (UInt8.ofNat n)) = false := by decide
  have := key u.toNat u.toNat_lt
  rwa [UInt8.ofNat_toNat] at this

theorem mem_encode {s : Bytes} {c : UInt8} (hc : c ∈ encode s) : c = 61 ∨ ∃ u, c = encodeChar u := by
  induction s using encode.induct with
  | case1 => simp [encode] at hc
  | case2 b₁ x y z w h =>
    simp only [encode, encodeRound, List.mem_cons, List.not_mem_nil, or_false] at hc
    obtain rfl | rfl | rfl | rfl := hc <;> simp
  | case3 b₁ b₂ x y z w h =>
    simp only [encode, encodeRound, List.mem_cons, List.not_mem_nil, or_false] at hc
    obtain rfl | rfl | rfl | rfl := hc <;> simp
  | case4 b₁ b₂ b₃ s x y z w h ih =>
    simp only [encode, encodeRound, List.mem_cons] at hc
    obtain rfl | rfl | rfl | rfl | hc := hc
    · simp
    · simp
    · simp
    · simp
    · exact ih hc

theorem plainText_encode (s : Bytes) : PlainText (encode s) := by
  intro c hc
  obtain rfl | ⟨u, rfl⟩ := mem_encode hc
  · decide
  · exact (encodeChar_plain u).1

theorem inked_encode {s : Bytes} : Inked (encode s) ↔ s ≠ [] := by
  constructor
  · rintro h rfl
    exact h.ne_nil rfl
  · intro hs
    obtain ⟨u, t, ht⟩ : ∃ u t, encode s = encodeChar u :: t := by
      obtain _ | ⟨b₁, _ | ⟨b₂, _ | ⟨b₃, s⟩⟩⟩ := s
      · exact absurd rfl hs
      · exact ⟨_, _, rfl⟩
      · exact ⟨_, _, rfl⟩
      · exact ⟨_, _, rfl⟩
    simp [Inked, ht, (encodeChar_plain u).2]

end Base64

namespace RpcValue

/-- The bytes come back from the text that `asXml` writes. -/
def ReadsBack (s : Bytes) : Prop :=
  ∃ xml p str p', (ofBinary s).asXml = some xml ∧ (Parser.ofString xml).getNextElement = .ok (true, p) ∧
    FromXml p = .ok (.binary str s, p')

/-- `FromXml` rejects every base64 text that `asXml` writes. -/
theorem fromXml_ofBinary (s : Bytes) :
    ∃ xml p, (ofBinary s).asXml = some xml ∧ (Parser.ofString xml).getNextElement = .ok (true, p) ∧
      FromXml p = .error (.IOException
        (if s ≠ [] then "base64 tag has no end tag" else "base64 tag has no content")) := by
  let ts : List Piece := [⟨[], .opening, VALUE_TAG⟩, ⟨[], .opening, BASE64_TAG⟩,
    ⟨Base64.encode s, .closing, BASE64_TAG⟩, ⟨[], .closing, VALUE_TAG⟩]
  have hxml : (ofBinary s).asXml = some (render ts ++ bytes "\n") := by
    simp [ofBinary, asXml, ts, Piece.render, Piece.tag, bytes, VALUE_TAG, BASE64_TAG]
  have hstart : Reads (Parser.ofString (render ts ++ bytes "\n")) ts (bytes "\n") := ⟨rfl, rfl⟩
  have hplain : PlainText (Base64.encode s) := Base64.plainText_encode s
  obtain ⟨p, hp, hr, he⟩ := getNextElement_spec hstart (Piece.plain_of_gap (by decide) (by decide))
  obtain ⟨p₁, hp₁, hr₁, he₁⟩ :=
    readValue_tag (n := p.left) he hr (Piece.plain_of_gap (by decide) (by decide)) (by decide)
  refine ⟨_, p, hxml, hp, ?_⟩
  rw [FromXml, hp₁, readType_base64 (by rw [he₁]; rfl), readBinary_error he₁ rfl hr₁ hplain]
  simp only [Base64.inked_encode]
  rfl

/-- No binary value survives. -/
theorem not_readsBack (s : Bytes) : ¬ReadsBack s := by
  rintro ⟨xml, p, str, p', hxml, hp, hrun⟩
  obtain ⟨xml', q, hxml', hq, herror⟩ := fromXml_ofBinary s
  cases Option.some.inj (hxml.symm.trans hxml')
  cases Except.ok.inj (hp.symm.trans hq)
  rw [herror] at hrun
  cases hrun

theorem not_readsBack_zero : ¬∀ s : Bytes, s ≠ [] → ReadsBack s := by
  intro h
  obtain ⟨xml, p, str, p', hxml, hp, hrun⟩ := h [0] (by decide)
  obtain ⟨xml', q, hxml', hq, herror⟩ := fromXml_ofBinary [0]
  cases Option.some.inj (hxml.symm.trans hxml')
  cases Except.ok.inj (hp.symm.trans hq)
  rw [herror] at hrun
  cases hrun

end RpcValue

end Srl
