import Srl.XmlPieces

namespace Srl

namespace XML

open Bytes

def AMP : UInt8 := 38

/-- `RAW_ENTITY` and `XML_ENTITY`. -/
def ENTITY : List (UInt8 × Bytes) :=
  [(60, bytes "lt;"), (62, bytes "gt;"), (38, bytes "amp;"), (39, bytes "apos;"), (34, bytes "quot;")]

/-- What `XML::encode` makes of one character; control characters are left out. -/
def encodeChar (c : UInt8) : Bytes :=
  match ENTITY.find? (·.1 = c) with
  | some e => AMP :: e.2
  | none => if char c < 9 ∨ (char c < 32 ∧ char c > 13) then [] else [c]

def encode (raw : Bytes) : Bytes := raw.flatMap encodeChar

/-- The loop of `XML::decode` over the characters from `i` on. -/
def decodeLoop : Nat → Bytes → Bytes
  | 0, _ => []
  | _, [] => []
  | fuel + 1, c :: rest =>
    if c = AMP ∧ rest ≠ [] then
      match ENTITY.find? fun e => e.2.isPrefixOf rest with
      | some e => e.1 :: decodeLoop fuel (rest.drop e.2.length)
      | none => c :: decodeLoop fuel rest
    else c :: decodeLoop fuel rest

/-- `XML::decode`. The text in front of the first `&` is copied with the constructor that
takes a length of 0 for the whole text. -/
def decode (encoded : Bytes) : Bytes :=
  match encoded.find AMP 0 with
  | none => encoded
  | some i => ofText encoded i ++ decodeLoop encoded.length (encoded.drop i)

theorem decode_of_plain {s : Bytes} (h : ∀ c ∈ s, c ≠ AMP) : decode s = s := by
  rw [decode, find_eq_none (by decide) (by simpa using h)]

theorem encode_of_plain {s : Bytes} (h : ∀ c ∈ s, encodeChar c = [c]) : encode s = s := by
  rw [encode, List.flatMap_congr h]
  exact List.flatMap_singleton' s

end XML

end Srl
