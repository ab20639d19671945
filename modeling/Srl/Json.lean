import Srl.IStream
import Srl.SortedMap
import Mathlib.Data.List.Lex

namespace Srl.JSON

/-- What the library does with the numbers: `extract` is what `>>` makes of the text and the text that it leaves,
`print` is what `<<` writes. Nothing is taken of a text that starts with a character no number has. -/
structure Numbers (ν : Type) where
  extract : Bytes → Option ν × Bytes
  print : ν → Bytes
  extract_suffix : ∀ s, (extract s).2 <:+ s
  extract_other : ∀ c s, isspace c = false → (c < 48 ∨ 57 < c) → c ∉ bytes "+-." → extract (c :: s) = (none, c :: s)

/-- A map lists its entries in the order of their keys. -/
inductive Value (ν : Type) where
  | number (number_value : ν)
  | string (string_value : Bytes)
  | bool (bool_value : Bool)
  | null
  | array (values : List (Value ν))
  | object (value_map : List (Bytes × Value ν))

/-- `std::string` compares its characters as they are, without a sign. -/
def rank (s : Bytes) : List Nat := s.map UInt8.toNat

def put {ν : Type} (key : Bytes) (v : Value ν) (value_map : List (Bytes × Value ν)) : List (Bytes × Value ν) :=
  SortedMap.put rank key v value_map

/-- The loop of `match` from `cur` on. -/
def matchLoop : Bytes → UInt8 → IStream → Bool × IStream
  | [], _, input => (true, input)
  | p :: cur, ch, input =>
    if input.fail || input.eof then (false, input)
    else
      let (ch, input) := input.get ch
      if ch ≠ p then (false, input.putback ch) else matchLoop cur ch input

/-- `match(pattern, input)`. -/
def matchText (pattern : Bytes) (input : IStream) : Bool × IStream := matchLoop pattern 0 input.ws

/-- What is pushed for the character behind a backslash. -/
def escaped (ch : UInt8) : Bytes :=
  if ch = 34 ∨ ch = 92 ∨ ch = 47 then [ch]
  else if ch = 98 then [8]
  else if ch = 102 then [12]
  else if ch = 110 then [10]
  else if ch = 114 then [13]
  else if ch = 116 then [9]
  else [92, ch]

/-- What the loops of the strings and arrays have yet to read. -/
def left (input : IStream) : Nat := if input.good then input.rest.length + 1 else 0

theorem left_get {input : IStream} (h : input.good = true) (ch : UInt8) : left (input.get ch).2 < left input := by
  rw [IStream.eq_ofString h]
  cases input.rest with
  | nil =>
    rw [IStream.get_ofString_nil]
    simp [left, IStream.ofString, IStream.good]
  | cons c rest =>
    rw [IStream.get_ofString_cons]
    simp [left, IStream.ofString, IStream.good]

theorem left_get_le (input : IStream) (ch : UInt8) : left (input.get ch).2 ≤ left input := by
  by_cases h : input.good = true
  · exact (left_get h ch).le
  · rw [IStream.get_of_not_good (Bool.not_eq_true _ ▸ h)]
    simp [left, IStream.good]

/-- The loop of `parse_string` with the last character read and the string so far. -/
def stringLoop (input : IStream) (ch : UInt8) (value : Bytes) : UInt8 × Bytes × IStream :=
  if _h : input.good then
    let got := input.get ch
    if got.1 = 34 then (got.1, value, got.2)
    else if got.1 = 92 then
      let next := got.2.get got.1
      stringLoop next.2 next.1 (value ++ escaped next.1)
    else stringLoop got.2 got.1 (value ++ [got.1])
  else (ch, value, input)
termination_by left input
decreasing_by
  · exact lt_of_le_of_lt (left_get_le _ _) (left_get _h ch)
  · exact left_get _h ch

/-- The string, or `none` where `parse_string` returns `false`. -/
def parse_string (input : IStream) : Option Bytes × IStream :=
  match matchText (bytes "\"") input with
  | (false, input) => (none, input)
  | (true, input) =>
    let (ch, value, input) := stringLoop input 0 []
    if !input.fail && ch = 34 then (some value, input) else (none, input)

def parse_bool (input : IStream) : Option Bool × IStream :=
  match matchText (bytes "true") input with
  | (true, input) => (some true, input)
  | (false, input) =>
    match matchText (bytes "false") input with
    | (true, input) => (some false, input)
    | (false, input) => (none, input)

def parse_null (input : IStream) : Bool × IStream := matchText (bytes "null") input

variable {ν : Type}

/-- `input >> *value`. -/
def extract (num : Numbers ν) (input : IStream) : Option ν × IStream :=
  let input := input.sentry
  if input.good then
    let rest := input.rest.dropWhile isspace
    if rest.isEmpty then (none, { rest := rest, eof := true, fail := true })
    else
      let (value, rest) := num.extract rest
      (value, { rest := rest, eof := rest.isEmpty, fail := value.isNone })
  else (none, input)

def parse_number (num : Numbers ν) (input : IStream) : Option ν × IStream :=
  let (value, input) := extract num input.ws
  if input.fail then (none, input.clear) else (value, input)

mutual

/-- `Value::parse`: the value, or `none` where it returns `false`. It is given `fuel` calls. -/
def Value.parse (num : Numbers ν) : Nat → IStream → Option (Option (Value ν) × IStream)
  | 0, _ => none
  | fuel + 1, input =>
    match parse_string input with
    | (some s, input) => some (some (.string s), input)
    | (none, input) =>
      match parse_number num input with
      | (some x, input) => some (some (.number x), input)
      | (none, input) =>
        match parse_bool input with
        | (some b, input) => some (some (.bool b), input)
        | (none, input) =>
          match parse_null input with
          | (true, input) => some (some .null, input)
          | (false, input) =>
            match input.peek with
            | (some 91, input) =>
              match Array.parse num fuel input with
              | none => none
              | some (some values, input) => some (some (.array values), input)
              | some (none, input) => Value.parseObject num fuel input
            | (_, input) => Value.parseObject num fuel input

/-- The last branch of `Value::parse`. -/
def Value.parseObject (num : Numbers ν) : Nat → IStream → Option (Option (Value ν) × IStream)
  | 0, _ => none
  | fuel + 1, input =>
    match Object.parse num fuel input with
    | none => none
    | some (some value_map, input) => some (some (.object value_map), input)
    | some (none, input) => some (none, input)

def Array.parse (num : Numbers ν) : Nat → IStream → Option (Option (List (Value ν)) × IStream)
  | 0, _ => none
  | fuel + 1, input =>
    match matchText (bytes "[") input with
    | (false, input) => some (none, input)
    | (true, input) =>
      match Array.parseLoop num fuel input [] with
      | none => none
      | some (values, input) =>
        match matchText (bytes "]") input with
        | (true, input) => some (some values, input)
        | (false, input) => some (none, input)

/-- The loop of `Array::parse` with the values so far. -/
def Array.parseLoop (num : Numbers ν) : Nat → IStream → List (Value ν) → Option (List (Value ν) × IStream)
  | 0, _, _ => none
  | fuel + 1, input, values =>
    match Value.parse num fuel input with
    | none => none
    | some (none, input) => some (values, input)
    | some (some v, input) =>
      match matchText (bytes ",") input with
      | (true, input) => Array.parseLoop num fuel input (values ++ [v])
      | (false, input) => some (values ++ [v], input)

def Object.parse (num : Numbers ν) : Nat → IStream → Option (Option (List (Bytes × Value ν)) × IStream)
  | 0, _ => none
  | fuel + 1, input =>
    match matchText (bytes "\x7b") input with
    | (false, input) => some (none, input)
    | (true, input) =>
      match Object.parseLoop num fuel input [] with
      | none => none
      | some (none, input) => some (none, input)
      | some (some value_map, input) =>
        match matchText (bytes "\x7d") input with
        | (true, input) => some (some value_map, input)
        | (false, input) => some (none, input)

/-- The loop of `Object::parse` with the map so far; `none` in front of the stream is its `return false`. -/
def Object.parseLoop (num : Numbers ν) :
    Nat → IStream → List (Bytes × Value ν) → Option (Option (List (Bytes × Value ν)) × IStream)
  | 0, _, _ => none
  | fuel + 1, input, value_map =>
    match parse_string input with
    | (none, input) => some (none, input)
    | (some key, input) =>
      match matchText (bytes ":") input with
      | (false, input) => some (none, input)
      | (true, input) =>
        match Value.parse num fuel input with
        | none => none
        | some (none, input) => some (some value_map, input)
        | some (some v, input) =>
          match matchText (bytes ",") input with
          | (true, input) => Object.parseLoop num fuel input (put key v value_map)
          | (false, input) => some (some (put key v value_map), input)

end

end Srl.JSON
