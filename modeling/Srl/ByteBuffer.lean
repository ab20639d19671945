import Srl.Bytes
import Srl.Cells
import Mathlib.Data.Nat.Bitwise

namespace Srl

open Cells

/-- What a call throws. A `fault` is a `memcpy` that runs past the memory it is given. -/
inductive Thrown
  | socketException (message : Bytes)
  | socketDisconnected (message : Bytes)
  | outOfMemory (message : Bytes)
  | indexOutOfBounds (message : Bytes)
  | io (message : Bytes)
  | fault
deriving DecidableEq

/-- `ROUNDUP`, in 32 bits. -/
def roundup (n roundval : Nat) : Nat := (n + roundval - 1) % 2 ^ 32 &&& (2 ^ 32 - roundval)

/-- A `ByteBuffer`; `buffer` is the whole allocation, so that `_size` is its length. No branch reads
`outside`: it records that an index past the allocation was used. -/
structure ByteBuffer where
  buffer : Bytes
  length : Nat
  pos : Nat
  outside : Bool
deriving DecidableEq

/-- What ends a `readUntil`: a character, or a `String` with the memory behind its terminator. -/
inductive Delimiter
  | char (c : UInt8)
  | text (str : Bytes) (past : Nat → UInt8)

/-- How far a search came. -/
inductive Found
  | hit (i : Nat)
  | missing
  | outside
deriving DecidableEq

/-- What one round of a search finds at its index. -/
inductive Probe
  | hit
  | differs
  | outside
deriving DecidableEq

namespace Delimiter

/-- `value.length()`; a character is one byte wide. -/
def width : Delimiter → Nat
  | char _ => 1
  | text str _ => str.length

/-- `_buffer[i + p] == value[p]`: the byte meets a `byte`, or the signed `char` of a `String`. -/
def agrees : Delimiter → Nat → UInt8 → Bool
  | char c, _, b => b = c
  | text str past, p, b => (b.toNat : Int) = Srl.char (str.getD p (if p = str.length then 0 else past p))

end Delimiter

namespace ByteBuffer

def size (b : ByteBuffer) : Nat := b.buffer.length

/-- `remaining`, a 32 bit difference. -/
def remaining (b : ByteBuffer) : Nat := (b.length + 2 ^ 32 - b.pos) % 2 ^ 32

def atEnd (b : ByteBuffer) : Bool := b.length ≤ b.pos

/-- The bytes that were received and not yet read. -/
def unread (b : ByteBuffer) : Bytes := window b.buffer b.pos b.length

/-- The indices before `n` are used. -/
def reach (b : ByteBuffer) (n : Nat) : ByteBuffer :=
  { b with outside := b.outside || decide (b.size < n) }

/-- `data` is stored from the index `i` on. -/
def store (b : ByteBuffer) (i : Nat) (data : Bytes) : ByteBuffer :=
  { b with
    buffer := overwrite b.buffer i data
    outside := b.outside || decide (b.size < i + data.length) }

/-- `resize`; `fresh` is what the memory held that is new. -/
def resize (b : ByteBuffer) (new_size : Nat) (fresh : Nat → UInt8) : ByteBuffer :=
  if 0 < new_size then
    let new_size := roundup (new_size + 1) 16
    if new_size = b.size then if 0 < new_size then b.store (new_size - 1) [0] else b
    else { b with buffer := realloc b.buffer new_size fresh }.store (new_size - 1) [0]
  else { b with buffer := [] }

/-- `ByteBuffer(new_size)`. -/
def new (new_size : Nat) (fresh : Nat → UInt8) : ByteBuffer :=
  resize { buffer := [], length := 0, pos := 0, outside := false } new_size fresh

/-- `moveStart`: a `memmove` of the unread bytes, and a terminator behind them. -/
def moveStart (b : ByteBuffer) : ByteBuffer :=
  if b.pos < b.length ∧ 0 < b.length then
    let n := b.length - b.pos
    let moved := (b.reach b.length).store 0 b.unread
    { moved with length := n, pos := n }.store n [0]
  else b

def toggle (b : ByteBuffer) (write_mode : Bool) : ByteBuffer :=
  if write_mode then
    if b.pos = b.length then { b with pos := 0, length := 0 } else b.moveStart
  else { b with pos := 0 }

def setPosition (b : ByteBuffer) (pos : Nat) : Except Thrown ByteBuffer :=
  if b.size < pos then .error (.indexOutOfBounds (bytes "past bytebuffer allocated size"))
  else .ok { b with pos := pos }

def setLength (b : ByteBuffer) (length : Nat) : ByteBuffer := { b with length := length }

/-- The inner loop of `find(String)`, at the bytes from its index on. -/
def agree (d : Delimiter) : Bytes → Nat → Probe
  | [], _ => .outside
  | c :: rest, p =>
    if d.agrees p c then if p + 1 = d.width then .hit else agree d rest (p + 1) else .differs

/-- One round of a `find`: the byte there is compared, or the `String` from there on. -/
def probe (b : ByteBuffer) : Delimiter → Nat → Probe
  | .char c, i =>
    match b.buffer[i]? with
    | none => .outside
    | some v => if v = c then .hit else .differs
  | .text str past, i => agree (.text str past) (b.buffer.drop i) 0

/-- The loop of `find` over `n` indices from `i` on. -/
def findLoop (b : ByteBuffer) (d : Delimiter) : Nat → Nat → Found
  | 0, _ => .missing
  | n + 1, i =>
    match b.probe d i with
    | .hit => .hit i
    | .differs => findLoop b d n (i + 1)
    | .outside => .outside

def find (b : ByteBuffer) (d : Delimiter) : Found := findLoop b d (b.length - b.pos) b.pos

/-- `readUntil`: the number of bytes read and the bytes. `find` gives it an `int32`. What a search finds
outside is unknown, and it ends there. -/
def readUntil (b : ByteBuffer) (d : Delimiter) : Nat × Bytes × ByteBuffer :=
  match b.find d with
  | .hit i =>
    if i < 2 ^ 31 then
      let end_pos := i + d.width
      (end_pos - b.pos, window b.buffer b.pos end_pos, { b with pos := end_pos })
    else (0, [], b)
  | .missing => (0, [], b)
  | .outside => (0, [], { b with outside := true })

/-- The message of a `read` past the length. -/
def pastBoundary (pos len read : Nat) : Bytes :=
  bytes s!"attempting to read past the byte buffer boundry [pos={pos}, len={len}, read={read}]"

/-- `read(void*)` of `read_size` bytes, where the sum is one of 32 bits. -/
def read (b : ByteBuffer) (read_size : Nat) : Except Thrown Bytes × ByteBuffer :=
  if b.length ≤ (read_size + b.pos) % 2 ^ 32 then
    (.error (.indexOutOfBounds (pastBoundary b.pos b.length read_size)), b)
  else if b.size < b.pos + read_size then (.error .fault, b.reach (b.pos + read_size))
  else (.ok (window b.buffer b.pos (b.pos + read_size)), { b with pos := b.pos + read_size })

/-- The `uint32` of four bytes, least significant first. -/
def uint32 (raw : Bytes) : Nat := raw.foldr (fun c n => c.toNat + 256 * n) 0

/-- `read(String&)` once the size is known: what the call returns and the string. -/
def readChars (b : ByteBuffer) (read_count strsize : Nat) : Except Thrown (Nat × Bytes) × ByteBuffer :=
  if 0 < strsize then
    match b.read strsize with
    | (.error e, b) => (.error e, b)
    | (.ok raw, b) => (.ok (read_count + strsize, raw), b)
  else (.ok (read_count, []), b)

/-- `read(String&, arrysize)`: a size of 0 asks for one that the buffer holds in front. -/
def readString (b : ByteBuffer) (arrysize : Nat) : Except Thrown (Nat × Bytes) × ByteBuffer :=
  if arrysize = 0 then
    match b.read 4 with
    | (.error e, b) => (.error e, b)
    | (.ok raw, b) => b.readChars 4 (uint32 raw)
  else b.readChars 0 arrysize

end ByteBuffer

end Srl
