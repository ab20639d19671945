import Srl.Bytes

namespace Srl

namespace Base64

/-- `Base64::encode(const unsigned char&)`. -/
def encodeChar (u : UInt8) : UInt8 :=
  if u < 26 then 65 + u
  else if u < 52 then 97 + (u - 26)
  else if u < 62 then 48 + (u - 52)
  else if u = 62 then 43
  else 47

/-- `Base64::decode(const char&)`. -/
def decodeChar (c : UInt8) : UInt8 :=
  if 65 ≤ c ∧ c ≤ 90 then c - 65
  else if 97 ≤ c ∧ c ≤ 122 then c - 97 + 26
  else if 48 ≤ c ∧ c ≤ 57 then c - 48 + 52
  else if c = 43 then 62
  else 63

/-- `Base64::isBase64`; the padding sign is one of the characters. -/
def isBase64 (c : UInt8) : Bool :=
  (65 ≤ c && c ≤ 90) || (97 ≤ c && c ≤ 122) || (48 ≤ c && c ≤ 57) || c = 43 || c = 47 || c = 61

/-- The four characters of a round of `encode`; `b₂` and `b₃` are 0 behind the end. -/
def encodeRound (b₁ b₂ b₃ : UInt8) : UInt8 × UInt8 × UInt8 × UInt8 :=
  (encodeChar (b₁ >>> 2), encodeChar (((b₁ &&& 3) <<< 4) ||| (b₂ >>> 4)),
    encodeChar (((b₂ &&& 15) <<< 2) ||| (b₃ >>> 6)), encodeChar (b₃ &&& 63))

/-- What `encode(bytes, len, encoded)` appends. -/
def encode : Bytes → Bytes
  | [] => []
  | [b₁] =>
    let (x, y, _, _) := encodeRound b₁ 0 0
    [x, y, 61, 61]
  | [b₁, b₂] =>
    let (x, y, z, _) := encodeRound b₁ b₂ 0
    [x, y, z, 61]
  | b₁ :: b₂ :: b₃ :: s =>
    let (x, y, z, w) := encodeRound b₁ b₂ b₃
    x :: y :: z :: w :: encode s

/-- The bytes of a round of `decode`. The characters are those of the source text: the
copy without foreign characters, which the function makes first, has no reader. -/
def decodeRound (c₁ c₂ c₃ c₄ : UInt8) : Bytes :=
  let b₁ := decodeChar c₁
  let b₂ := decodeChar c₂
  let b₃ := decodeChar c₃
  let b₄ := decodeChar c₄
  ((b₁ <<< 2) ||| (b₂ >>> 4)) ::
    ((if c₃ ≠ 61 then [((b₂ &&& 15) <<< 4) ||| (b₃ >>> 2)] else []) ++
      if c₄ ≠ 61 then [((b₃ &&& 3) <<< 6) ||| b₄] else [])

/-- The bytes that `decode(src, decoded)` writes; missing characters count as `A`. -/
def decode : Bytes → Bytes
  | [] => []
  | [c₁] => decodeRound c₁ 65 65 65
  | [c₁, c₂] => decodeRound c₁ c₂ 65 65
  | [c₁, c₂, c₃] => decodeRound c₁ c₂ c₃ 65
  | c₁ :: c₂ :: c₃ :: c₄ :: s => decodeRound c₁ c₂ c₃ c₄ ++ decode s

end Base64

end Srl
