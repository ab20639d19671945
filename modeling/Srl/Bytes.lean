import Mathlib.Algebra.Order.Ring.Int
import Mathlib.Data.List.Basic

namespace Srl

/-- The characters of an SRL `String`, without the terminator. -/
abbrev Bytes := List UInt8

/-- Only the characters of the string are tried, whatever else is known of `UInt8`. -/
instance (priority := high) (s : Bytes) (p : UInt8 → Prop) [DecidablePred p] : Decidable (∀ c ∈ s, p c) :=
  List.decidableBAll p s

/-- The characters of a literal of the source. -/
def bytes (s : String) : Bytes := s.toList.map fun c => UInt8.ofNat c.toNat

/-- The character `c` as the signed `char` that the source compares. -/
def char (c : UInt8) : Int := c.toInt8.toInt

/-- `isspace` in the C locale. -/
def isspace (c : UInt8) : Bool := (9 ≤ c && c ≤ 13) || c = 32

namespace Bytes

/-- One round of `String::hash`; the character is a signed `char`. -/
def hashStep (h : UInt32) (c : UInt8) : UInt32 := (h <<< 5 + h) ^^^ c.toInt8.toInt32.toUInt32

/-- `String::hash`. The cached value is the one that this function computes. -/
def hash (s : Bytes) : UInt32 := s.foldl hashStep 0

/-- The characters that a C function sees: those before the first `NUL`. -/
def cstr (s : Bytes) : Bytes := s.takeWhile (· ≠ 0)

/-- `String::Compare`, which ends at the terminators. -/
def same (s t : Bytes) : Bool := cstr s = cstr t

/-- `_str[i]`, with the terminator behind the last character. -/
def charAt (s : Bytes) (i : Nat) : UInt8 := s.getD i 0

/-- `String::find(char)`, a `strchr` from `pos` on; `none` is `-1`. The `NUL` that it finds may be
the terminator. -/
def find (s : Bytes) (c : UInt8) (pos : Nat) : Option Nat :=
  if c = 0 then some (pos + (cstr (s.drop pos)).length)
  else ((cstr (s.drop pos)).findIdx? (· = c)).map (pos + ·)

/-- `String(const char*, len)`: a length of 0 asks for the whole C string. -/
def ofText (s : Bytes) (len : Nat) : Bytes := if len = 0 then cstr s else s.take len

/-- `String::mid`; lengths and positions are below 2³² here and do not wrap. -/
def mid (s : Bytes) (pos len : Nat) : Bytes :=
  if pos + len ≤ s.length then ofText (s.drop pos) len else []

def substr (s : Bytes) (pos len : Nat) : Bytes := mid s pos len

/-- `substr(pos)`. -/
def substrFrom (s : Bytes) (pos : Nat) : Bytes := mid s pos (s.length - pos)

/-- `String::find(const char*)`, a `strstr` from `pos` on. -/
def findText (s t : Bytes) (pos : Nat) : Option Nat :=
  ((cstr (s.drop pos)).tails.findIdx? (t.isPrefixOf ·)).map (pos + ·)

/-- `replace(char, char)`. -/
def replaceChar (s : Bytes) (c₁ c₂ : UInt8) : Bytes :=
  (cstr s).map (fun c => if c = c₁ then c₂ else c) ++ s.drop (cstr s).length

/-- `replaceFrom`. An empty replacement only writes a terminator and keeps the length. -/
def replaceFrom (s : Bytes) (pos len : Nat) (t : Bytes) : Bytes :=
  if s = [] then s
  else if 0 < t.length then s.take pos ++ t ++ s.drop (pos + len)
  else s.set (s.length - len) 0

/-- The loop of `replace(const char*, const char*)`; `none` when its rounds do not end. -/
def replaceLoop (str₁ str₂ : Bytes) : Nat → Bytes → Nat → Option Bytes
  | 0, _, _ => none
  | fuel + 1, s, npos =>
    match findText s str₁ npos with
    | some npos => replaceLoop str₁ str₂ fuel (replaceFrom s npos str₁.length str₂) npos
    | none => some s

def replace (s str₁ str₂ : Bytes) : Option Bytes := replaceLoop str₁ str₂ (s.length + 1) s 0

def HEX : Bytes := bytes "0123456789ABCDEF"

/-- The loop of `String::Val`, which fills its buffer from the end. -/
def valLoop (base : UInt32) : Nat → UInt32 → Bytes → Bytes
  | 0, _, p => p
  | fuel + 1, nn, p =>
    let p := charAt HEX (nn % base).toNat :: p
    let nn := nn / base
    if nn ≠ 0 then valLoop base fuel nn p else p

/-- `String::Val(int32, base)`. -/
def val (num : Int32) (base : UInt32) : Bytes :=
  if base < 2 ∨ 16 < base then []
  else
    let nn := if num < 0 then (~~~num).toUInt32 + 1 else num.toUInt32
    let p := valLoop base 33 nn []
    if num < 0 then 45 :: p else p

/-- `String::Val(uint32, base)`. -/
def valUInt32 (num base : UInt32) : Bytes := if base < 2 ∨ 16 < base then [] else valLoop base 33 num []

/-- Value of a digit in the bases up to 36. -/
def digit (c : UInt8) : Option Nat :=
  if 48 ≤ c ∧ c ≤ 57 then some (c.toNat - 48)
  else if 65 ≤ c ∧ c ≤ 90 then some (c.toNat - 55)
  else if 97 ≤ c ∧ c ≤ 122 then some (c.toNat - 87)
  else none

/-- The digits that `strtol` reads, most significant first. -/
def digitsOf (base : Nat) : Bytes → List Nat
  | [] => []
  | c :: s =>
    match digit c with
    | some n => if n < base then n :: digitsOf base s else []
    | none => []

def number (base : Nat) (ds : List Nat) : Nat := ds.foldl (fun n d => n * base + d) 0

/-- The optional `0x` of a number in base 16. -/
def skipHex (base : Nat) (s : Bytes) : Bytes :=
  if base = 16 ∧ (s.take 2 = bytes "0x" ∨ s.take 2 = bytes "0X") ∧ digitsOf 16 (s.drop 2) ≠ [] then s.drop 2
  else s

/-- The C library's `strtol`, with its result clamped to a 64-bit `long`. -/
def strtol (s : Bytes) (base : Nat) : Int :=
  let s := s.dropWhile isspace
  match s with
  | 45 :: s => max (-(number base (digitsOf base (skipHex base s)) : Int)) (-2 ^ 63)
  | 43 :: s => min (number base (digitsOf base (skipHex base s)) : Int) (2 ^ 63 - 1)
  | s => min (number base (digitsOf base (skipHex base s)) : Int) (2 ^ 63 - 1)

/-- `String::Int`. -/
def int (s : Bytes) (base : Nat) : Int32 := Int32.ofInt (strtol s base)

/-- The C library's `strtoul`, whose result is an unsigned 64-bit `long`. -/
def strtoul (s : Bytes) (base : Nat) : Nat :=
  let s := s.dropWhile isspace
  match s with
  | 45 :: s =>
    let n := number base (digitsOf base (skipHex base s))
    if n < 2 ^ 64 then (2 ^ 64 - n) % 2 ^ 64 else 2 ^ 64 - 1
  | 43 :: s => min (number base (digitsOf base (skipHex base s))) (2 ^ 64 - 1)
  | s => min (number base (digitsOf base (skipHex base s))) (2 ^ 64 - 1)

/-- `String::UInt`. -/
def uint (s : Bytes) (base : Nat) : UInt32 := UInt32.ofNat (strtoul s base)

end Bytes

end Srl
