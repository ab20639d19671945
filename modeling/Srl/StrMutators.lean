import Srl.StrRuns

namespace Srl

open Cells Session

namespace Str

/-- `strchr`: the first `c` from `i` on, with the terminator as one of the characters. -/
def charLoop (c : UInt8) : Nat → Nat → Call (Option Nat)
  | 0, _ => throw .fault
  | fuel + 1, i => do
    let b ← read i
    if b = c then pure (some i) else if b = 0 then pure none else charLoop c fuel (i + 1)

/-- Whether the C string `needle` stands at `i`. -/
def startsAt : Bytes → Nat → Call Bool
  | [], _ => pure true
  | d :: needle, i => do if (← read i) = d then startsAt needle (i + 1) else pure false

/-- `strstr`: the first place from `i` on where the C string `needle` stands. -/
def textLoop (needle : Bytes) : Nat → Nat → Call (Option Nat)
  | 0, _ => throw .fault
  | fuel + 1, i => do
    if (← startsAt needle i) then pure (some i)
    else if (← read i) = 0 then pure none
    else textLoop needle fuel (i + 1)

/-- The `int32` that `find` returns. -/
def position : Option Nat → Int
  | some i => (i : Int).bmod (2 ^ 32)
  | none => -1

def find (c : UInt8) (pos : Nat) : Call Int := do
  let i ← charLoop c ((← get).memory.length + 1) pos
  pure (position i)

def findText (needle : Bytes) (pos : Nat) : Call Int := do
  let i ← textLoop needle ((← get).memory.length + 1) pos
  pure (position i)

/-- The loop of the removals and replacements: `body` at every position that `next` finds, the rounds still
left telling `body` what memory it may get. -/
def eachFound (next : Nat → Call Int) (body : Nat → Nat → Call Unit) (all : Bool) : Nat → Int → Call Unit
  | 0, _ => throw .unfinished
  | rounds + 1, npos =>
    if npos < 0 then pure ()
    else do
      body rounds npos.toNat
      if all then do eachFound next body all rounds (← next npos.toNat) else pure ()

variable (mem : Nat → Nat → UInt8) (rounds : Nat)

def removeChar (c : UInt8) (pos : Nat) (all : Bool) : Call Unit := do
  eachFound (find c) (fun k npos => remove (mem k) npos 1) all rounds (← find c pos)

/-- `remove` of a text; a `String` is looked for by its `text()` and removed by its `length()`. -/
def removeText (needle : Bytes) (len pos : Nat) (all : Bool) : Call Unit := do
  eachFound (findText needle) (fun k npos => remove (mem k) npos len) all rounds (← findText needle pos)

/-- `replaceFrom` with the C string `s`. -/
def replaceFrom (fresh : Nat → UInt8) (pos len : Nat) (s : Bytes) : Call Unit := do
  let length := (← get).string_length % 2 ^ 32
  let nsize := s.length % 2 ^ 32
  let src_pos := (pos + len) % 2 ^ 32
  let dst_pos := (pos + nsize) % 2 ^ 32
  let src_size := (length + 2 ^ 32 - src_pos) % 2 ^ 32
  let new_size := (length + (nsize + 2 ^ 32 - len % 2 ^ 32)) % 2 ^ 32
  if length = 0 then pure ()
  else
    if 0 < nsize then
      if length < new_size then resize fresh new_size else pure ()
      memmove dst_pos src_pos src_size
      if new_size < length then resize fresh new_size else pure ()
    else pure ()
    memcpy pos (s.take nsize)
    write new_size 0

def replaceChar (c₁ c₂ : UInt8) (pos : Nat) (all : Bool) : Call Unit := do
  eachFound (find c₁) (fun _ npos => write npos c₂) all rounds (← find c₁ pos)

def replaceCharText (c₁ : UInt8) (s : Bytes) (pos : Nat) (all : Bool) : Call Unit := do
  eachFound (find c₁) (fun k npos => replaceFrom (mem k) npos 1 s) all rounds (← find c₁ pos)

def replaceText (str₁ str₂ : Bytes) (pos : Nat) (all : Bool) : Call Unit := do
  eachFound (findText str₁) (fun k npos => replaceFrom (mem k) npos str₁.length str₂) all rounds
    (← findText str₁ pos)

/-- `toupper` and `tolower` in the C locale. -/
def toupper (c : UInt8) : UInt8 := if 97 ≤ c ∧ c ≤ 122 then c - 32 else c

def tolower (c : UInt8) : UInt8 := if 65 ≤ c ∧ c ≤ 90 then c + 32 else c

/-- The loop of `toUpper` and `toLower`. -/
def caseLoop (f : UInt8 → UInt8) : Nat → Nat → Call Unit
  | 0, _ => pure ()
  | fuel + 1, i => do
    write i (f (← read i))
    caseLoop f fuel (i + 1)

def toUpper : Call Unit := do caseLoop toupper (← get).string_length 0

def toLower : Call Unit := do caseLoop tolower (← get).string_length 0

/-- `vsnprintf(_str, n + 1, …)`, which prints no more than `n` characters of `printed`. -/
def vsnprintf (n : Nat) (printed : Bytes) : Call Unit := memcpy 0 (printed.take n ++ [0])

/-- `vformat` with a format of `fmt_length` characters that prints `printed`. -/
def vformat (fmt_length : Nat) (printed : Bytes) : Call Unit := do
  if 0 < fmt_length then
    let n := (fmt_length + 128) % 2 ^ 32
    resize (mem 0) n
    vsnprintf n printed
    if n < printed.length then
      resize (mem 1) printed.length
      vsnprintf printed.length printed
    else pure ()
    resize (mem 2) printed.length
  else resize (mem 0) 0

/-- The calls that change a text, and `hash`. Where the source takes a `const char*` the argument is the
C string at it. -/
inductive Op
  | edit (c : EditOp)
  | resize (size : Nat)
  | fill (c : UInt8) (len : Nat)
  | toUpper
  | toLower
  | removeChar (c : UInt8) (pos : Nat) (all : Bool)
  | removeText (s : Bytes) (pos : Nat) (all : Bool)
  | removeString (s : Bytes) (pos : Nat) (all : Bool)
  | replaceFrom (pos len : Nat) (s : Bytes)
  | replaceChar (c₁ c₂ : UInt8) (pos : Nat) (all : Bool)
  | replaceCharText (c : UInt8) (s : Bytes) (pos : Nat) (all : Bool)
  | replaceText (s₁ s₂ : Bytes) (pos : Nat) (all : Bool)
  | index (i : Nat) (c : UInt8)
  | format (fmt_length : Nat) (printed : Bytes)
  | hash

/-- A call other than `hash`, which is the one that answers. -/
def Op.mutate : Op → Call Unit
  | .edit c => c.call (mem 0)
  | .resize size => Str.resize (mem 0) size
  | .fill c len => Str.fill (mem 0) c len
  | .toUpper => Str.toUpper
  | .toLower => Str.toLower
  | .removeChar c pos all => Str.removeChar mem rounds c pos all
  | .removeText s pos all => Str.removeText mem rounds (Bytes.cstr s) (Bytes.cstr s).length pos all
  | .removeString s pos all => Str.removeText mem rounds (Bytes.cstr s) s.length pos all
  | .replaceFrom pos len s => Str.replaceFrom (mem 0) pos len (Bytes.cstr s)
  | .replaceChar c₁ c₂ pos all => Str.replaceChar rounds c₁ c₂ pos all
  | .replaceCharText c s pos all => Str.replaceCharText mem rounds c (Bytes.cstr s) pos all
  | .replaceText s₁ s₂ pos all => Str.replaceText mem rounds (Bytes.cstr s₁) (Bytes.cstr s₂) pos all
  | .index i c => write i c
  | .format fmt_length printed => Str.vformat mem fmt_length printed
  | .hash => pure ()

def Op.call : Op → Call (Option UInt32)
  | .hash => do
    let h ← Str.hash
    pure (some h)
  | c => do
    c.mutate mem rounds
    pure none

/-- The calls that write to the buffer without a resize: those that change letters, `fill` at the length
there is, and the replacements by a text of the same length or by none. -/
def Op.inPlace : Op → Bool
  | .toUpper | .toLower | .replaceChar .. | .index .. => true
  | .fill _ len => len = 0
  | .replaceFrom _ len s => (Bytes.cstr s).length % 2 ^ 32 = 0 ∨ (Bytes.cstr s).length % 2 ^ 32 = len % 2 ^ 32
  | .replaceCharText _ s _ _ => (Bytes.cstr s).length % 2 ^ 32 = 0 ∨ (Bytes.cstr s).length % 2 ^ 32 = 1
  | .replaceText s₁ s₂ _ _ => (Bytes.cstr s₂).length % 2 ^ 32 = 0 ∨
      (Bytes.cstr s₂).length % 2 ^ 32 = (Bytes.cstr s₁).length % 2 ^ 32
  | _ => false

end Str

end Srl
