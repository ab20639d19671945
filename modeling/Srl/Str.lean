import Srl.ByteBufferOps
import Srl.Session

namespace Srl

open Cells Session

/-- A `String` as it stands in memory: `str` is its buffer, or `none` when `_str` is `EMPTY`. -/
structure Str where
  str : Option Bytes
  array_size : Nat
  string_length : Nat
  min_size : Nat
  hash_value : UInt32
deriving DecidableEq

namespace Str

/-- What ends a call that does not return: it touches memory that is not its own, or writes to `EMPTY`, or
its loop has not ended after the rounds it was given. -/
inductive Stop
  | fault
  | unfinished
deriving DecidableEq

abbrev Call (β : Type) := Method Str Stop β

def buffer (s : Str) : Bytes := s.str.getD []

/-- What can be read from `_str` on: the buffer, or the integer 0 that `EMPTY` points to. -/
def memory (s : Str) : Bytes := s.str.getD [0, 0, 0, 0]

/-- `_str[i]`, read. -/
def read (i : Nat) : Call UInt8 := do
  match (← get).memory[i]? with
  | some c => pure c
  | none => throw .fault

/-- `_str[i] = c`. -/
def write (i : Nat) (c : UInt8) : Call Unit := do
  let s ← get
  if i < s.buffer.length then set { s with str := some (s.buffer.set i c) } else throw .fault

/-- `memcpy(&_str[i], data, n)`, for the `n` bytes `data` that do not overlap the buffer. -/
def memcpy (i : Nat) (data : Bytes) : Call Unit := do
  let s ← get
  if data = [] then pure ()
  else if i + data.length ≤ s.buffer.length then set { s with str := some (overwrite s.buffer i data) }
  else throw .fault

/-- `memmove(&_str[j], &_str[i], n)`. -/
def memmove (j i n : Nat) : Call Unit := do
  let s ← get
  if n = 0 then pure ()
  else if max j i + n ≤ s.buffer.length then
    set { s with str := some (overwrite s.buffer j (window s.buffer i (i + n))) }
  else throw .fault

/-- The new `_array_size` that `resize` asks for. -/
def rounded (s : Str) (size : Nat) : Nat := roundup ((if size < s.min_size then s.min_size else size) + 1) 16

/-- `String::resize`; the bytes that `malloc` and `realloc` add hold anything. -/
def resize (fresh : Nat → UInt8) (size : Nat) : Call Unit := do
  modify fun s => { s with hash_value := 0, string_length := size }
  let s ← get
  if 0 < s.string_length ∨ 0 < s.min_size then
    let size := s.rounded size
    if size = s.array_size then write s.string_length 0
    else
      set { s with str := some (realloc s.buffer size fresh) }
      write s.string_length 0
      modify fun s => { s with array_size := size }
  else set { s with str := none, array_size := 0 }

/-- `String::copy` of the text `s`. -/
def copy (fresh : Nat → UInt8) (s : Bytes) : Call Unit := do
  let len := s.length % 2 ^ 32
  resize fresh len
  if 0 < len then
    memcpy 0 (s.take len)
    write len 0
  else pure ()

def truncate (fresh : Nat → UInt8) (pos : Nat) : Call Unit := resize fresh pos

def reserve (fresh : Nat → UInt8) (len : Nat) : Call Unit := do
  modify fun s => { s with min_size := len }
  resize fresh (← get).string_length

def clear (fresh : Nat → UInt8) : Call Unit := resize fresh 0

/-- The text: what `_str` holds before `_string_length`. -/
def content (s : Str) : Bytes := s.memory.take s.string_length

/-- `String::hash`, which keeps what it computes. -/
def hash : Call UInt32 := do
  let s ← get
  if s.hash_value ≠ 0 then pure s.hash_value
  else if s.memory.length < s.string_length then throw .fault
  else
    set { s with hash_value := Bytes.hash s.content }
    pure (Bytes.hash s.content)

/-- The characters that `trim` strips. -/
def blank (c : UInt8) : Bool := c = 32 || c = 13 || c = 10

/-- The loop of `trimBegin`: how many blanks stand from `i` on. -/
def beginLoop : Nat → Nat → Call Nat
  | 0, i => pure i
  | fuel + 1, i => do if blank (← read i) then beginLoop fuel (i + 1) else pure i

def trimBegin (fresh : Nat → UInt8) : Call Unit := do
  let self ← get
  if self.str.isSome then
    let e := self.string_length
    let s ← beginLoop e 0
    memmove 0 s (e - s)
    resize fresh (e - s)
  else pure ()

/-- The loop of `trimEnd`: where the text without the blanks at its end stops. -/
def endLoop : Nat → Call Nat
  | 0 => pure 0
  | e + 1 => do if blank (← read e) then endLoop e else pure (e + 1)

def trimEnd (fresh : Nat → UInt8) : Call Unit := do
  let self ← get
  if self.str.isSome then
    let e ← endLoop self.string_length
    resize fresh e
  else pure ()

def trim (fresh : Nat → UInt8) : Call Unit := do
  trimBegin fresh
  trimEnd fresh

/-- `String::fill`, whose length 0 keeps the length there is. -/
def fill (fresh : Nat → UInt8) (c : UInt8) (len : Nat) : Call Unit := do
  if 0 < len then resize fresh len else pure ()
  let s ← get
  if s.str.isSome then memcpy 0 (List.replicate s.string_length c) else pure ()

def remove (fresh : Nat → UInt8) (pos len : Nat) : Call Unit := do
  let my_size := (← get).string_length
  let end_pos := (pos + len) % 2 ^ 32
  let new_size := (my_size + 2 ^ 32 - len) % 2 ^ 32
  if len = 0 then pure ()
  else if my_size ≤ end_pos then truncate fresh pos
  else
    memmove pos end_pos (my_size - end_pos)
    resize fresh new_size

/-- An index that the source keeps in an `int32`. -/
def int32Index (i : Nat) : Call Nat := do
  if i < 2 ^ 31 then pure i else throw .fault

/-- `append`, and `operator+=` for a C string: `s` is the other string up to its length. -/
def append (fresh : Nat → UInt8) (s : Bytes) : Call Unit := do
  let str_len := (← get).string_length
  resize fresh ((s.length + str_len) % 2 ^ 32)
  memcpy (← int32Index str_len) s
  write (← get).string_length 0

/-- `operator+=` for a `String`, which leaves out an empty one. -/
def plus (fresh : Nat → UInt8) (s : Bytes) : Call Unit := do
  if s = [] then pure () else append fresh s

def plusChar (fresh : Nat → UInt8) (c : UInt8) : Call Unit := do
  if c = 0 then pure ()
  else
    resize fresh ((1 + (← get).string_length) % 2 ^ 32)
    write ((← get).string_length - 1) c

def assignChar (fresh : Nat → UInt8) (c : UInt8) : Call Unit := do
  resize fresh 1
  write 0 c

def insertChar (fresh : Nat → UInt8) (pos : Nat) (c : UInt8) : Call Unit := do
  let len := (← get).string_length
  resize fresh ((len + 1) % 2 ^ 32)
  if pos = 0 then
    memmove 1 0 (len + 1)
    write 0 c
  else if len ≤ pos then write len c
  else
    memmove (pos + 1) pos (len - pos + 1)
    write pos c

/-- `insert` of a C string; that of a `String` inserts its `text()`. -/
def insert (fresh : Nat → UInt8) (pos : Nat) (s : Bytes) : Call Unit := do
  let str_size := s.length % 2 ^ 32
  let len := (← get).string_length
  resize fresh ((len + str_size) % 2 ^ 32)
  if pos = 0 then
    memmove str_size 0 len
    memcpy 0 (s.take str_size)
  else if len ≤ pos then memcpy len (s.take str_size)
  else
    memmove (pos + str_size) pos (len - pos)
    memcpy pos (s.take str_size)

end Str

end Srl
