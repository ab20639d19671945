import Srl.ByteBufferOps

namespace Srl

open Cells

namespace Binary

/-- The types whose arrays `BinaryWriter` and `BinaryReader` have an overload for. -/
inductive Scalar
  | byte
  | int16
  | int32
  | int64
  | uint16
  | uint32
  | uint64
deriving DecidableEq

/-- `sizeof`. -/
def Scalar.sizeof : Scalar → Nat
  | byte => 1
  | int16 | uint16 => 2
  | int32 | uint32 => 4
  | int64 | uint64 => 8

/-- The value of a scalar, as its bits. -/
abbrev Scalar.Value (t : Scalar) : Type := BitVec (8 * t.sizeof)

/-- A C string: its characters without the terminator. -/
abbrev CString : Type := { s : Bytes // 0 ∉ s }

/-- What is written with one call: an array, or a string with its length in front. -/
inductive Item
  | array (t : Scalar) (obj : List t.Value)
  | string (str : CString)
  | chars (str : CString)
deriving DecidableEq

/-- The call that reads an item: an array of the same size, a `String`, or a `char*`. -/
inductive Shape
  | array (t : Scalar) (arrysize : Nat)
  | string
  | chars

def Item.shape : Item → Shape
  | array t obj => .array t obj.length
  | string _ => .string
  | chars _ => .chars

/-- The `n` low bytes of a number, least significant first. -/
def littleEndian : Nat → Nat → Bytes
  | 0, _ => []
  | n + 1, v => UInt8.ofNat v :: littleEndian n (v / 256)

/-- An array in memory. -/
def Scalar.memory (t : Scalar) (obj : List t.Value) : Bytes :=
  obj.flatMap fun v => littleEndian t.sizeof v.toNat

/-- The array of `arrysize` elements that the memory holds. -/
def Scalar.values (t : Scalar) : Nat → Bytes → List t.Value
  | 0, _ => []
  | n + 1, raw => BitVec.ofNat _ (ByteBuffer.uint32 (raw.take t.sizeof)) :: t.values n (raw.drop t.sizeof)

/-- What a read gives back. -/
inductive Value
  | array (t : Scalar) (obj : List t.Value)
  | string (str : Bytes)
  | chars (str : Bytes)
deriving DecidableEq

def Item.value : Item → Value
  | array t obj => .array t obj
  | string str => .string str.1
  | chars str => .chars str.1

end Binary

open Binary

namespace ByteBuffer

/-- `writeData` of the bytes of `obj`, with the size that it returns; sizes are of 32 bits. -/
def writeData (fresh : ByteBuffer → Nat → UInt8) (b : ByteBuffer) (obj : Bytes) : Nat × ByteBuffer :=
  let write_size := obj.length % 2 ^ 32
  let n := (write_size + b.pos) % 2 ^ 32
  let b := if b.size ≤ n then b.resize n (fresh b) else b
  let b := b.store b.pos (obj.take write_size)
  (write_size, { b with pos := n, length := n }.store n [0])

/-- `BinaryWriter::write(const char*)`. -/
def writeString (fresh : ByteBuffer → Nat → UInt8) (b : ByteBuffer) (str : Bytes) (writeLength : Bool) :
    Nat × ByteBuffer :=
  let size := str.length % 2 ^ 32
  let (write_count, b) := if writeLength then b.writeData fresh (littleEndian 4 size) else (0, b)
  let (n, b) := b.writeData fresh (str.take size)
  (write_count + n, b)

/-- The overloads of `BinaryWriter::write`. -/
def write (fresh : ByteBuffer → Nat → UInt8) (b : ByteBuffer) : Item → Nat × ByteBuffer
  | .array t obj => b.writeData fresh (t.memory obj)
  | .string str | .chars str => b.writeString fresh str.1 true

/-- `BinaryReader::read` into an array whose memory held `obj` before. -/
def readArray (obj : Nat → UInt8) (b : ByteBuffer) (t : Scalar) (arrysize : Nat) :
    Except Thrown (Nat × List t.Value) × ByteBuffer :=
  let read_size := t.sizeof * arrysize % 2 ^ 32
  match b.read read_size with
  | (.error e, b) => (.error e, b)
  | (.ok raw, b) =>
    let memory := (List.range (t.sizeof * arrysize)).map fun i => raw.getD i (obj i)
    (.ok (read_size, t.values arrysize memory), b)

/-- `BinaryReader::read(char*)` once the size is known, with the characters that it puts before the
terminator; a string of 512 or more is left where it is. -/
def readCString (b : ByteBuffer) (read_count strsize : Nat) : Except Thrown (Nat × Bytes) × ByteBuffer :=
  if 0 < strsize ∧ strsize < 512 then
    match b.read strsize with
    | (.error e, b) => (.error e, b)
    | (.ok raw, b) => (.ok (read_count + strsize, raw), b)
  else (.ok (read_count, []), b)

/-- `BinaryReader::read(char*, arrysize)`. -/
def readCharStar (b : ByteBuffer) (arrysize : Nat) : Except Thrown (Nat × Bytes) × ByteBuffer :=
  if arrysize = 0 then
    match b.read 4 with
    | (.error e, b) => (.error e, b)
    | (.ok raw, b) => b.readCString 4 (uint32 raw)
  else b.readCString 0 arrysize

/-- The overloads of `BinaryReader::read`; the one for a `String` has the body of `readString`. -/
def readValue (obj : Nat → UInt8) (b : ByteBuffer) : Shape → Except Thrown (Nat × Value) × ByteBuffer
  | .array t arrysize =>
    let (r, b) := b.readArray obj t arrysize
    (r.map fun (n, values) => (n, .array t values), b)
  | .string =>
    let (r, b) := b.readString 0
    (r.map fun (n, str) => (n, .string str), b)
  | .chars =>
    let (r, b) := b.readCharStar 0
    (r.map fun (n, str) => (n, .chars str), b)

def writeAll (fresh : ByteBuffer → Nat → UInt8) (b : ByteBuffer) (items : List Item) : ByteBuffer :=
  items.foldl (fun b item => (b.write fresh item).2) b

/-- The values that a sequence of reads gives, up to the first exception. -/
def readAll (obj : Nat → UInt8) : List Shape → ByteBuffer → Except Thrown (List Value) × ByteBuffer
  | [], b => (.ok [], b)
  | shape :: shapes, b =>
    match b.readValue obj shape with
    | (.error e, b) => (.error e, b)
    | (.ok (_, v), b) =>
      match readAll obj shapes b with
      | (.error e, b) => (.error e, b)
      | (.ok vs, b) => (.ok (v :: vs), b)

end ByteBuffer

end Srl
