import Srl.ByteBuffer

namespace Srl

open Cells

def NOW : Int := 0

def FOREVER : Int := -1

/-- What `select` answers. -/
inductive Select
  | ready
  | idle
  | failed (text : Bytes)

/-- What the kernel's `recv` into `len` bytes answers. -/
inductive Delivery (len : Nat)
  | chunk (data : Bytes) (fits : 0 < data.length ∧ data.length ≤ len)
  | closed
  | failed (text : Bytes)

/-- The world's part in one round: the `select` before it, the answers that `Socket::recv` gets, new
memory and the clock behind it. -/
structure Turn where
  wait : Select
  connected : Bool
  poll : Select
  recv : (len : Nat) → Delivery len
  fresh : Nat → UInt8
  timer : UInt32

/-- `isRecvReady`. -/
def isRecvReady : Select → Except Thrown Bool
  | .ready => .ok true
  | .idle => .ok false
  | .failed text => .error (.socketException text)

/-- `Socket::recv`: the bytes that were stored. -/
def recv (t : Turn) (len : Nat) (msec : Int) : Except Thrown Bytes :=
  if !t.connected then
    .error (.socketException (bytes "socket must be connected to receive data"))
  else
    match if msec = FOREVER then .ok true else isRecvReady t.poll with
    | .error e => .error e
    | .ok false => .ok []
    | .ok true =>
      match t.recv len with
      | .chunk data _ => .ok data
      | .closed => .error (.socketDisconnected (bytes "socket disconnected during receive"))
      | .failed text => .error (.socketException text)

/-- What a socket begins with its buffer. -/
inductive Begun
  | refill (b : ByteBuffer)
  | search (d : Delimiter) (b : ByteBuffer)

/-- The buffer as it was then. -/
def Begun.buffer : Begun → ByteBuffer
  | refill b => b
  | search _ b => b

/-- A `TcpSocket`. No branch reads `received`, the bytes that the kernel put into the buffer, or
`begun`, what was begun and with which buffer. -/
structure TcpSocket where
  buffer : ByteBuffer
  max_size : Nat
  received : Bytes
  begun : List Begun

/-- How a call ends; it waits when the world makes no further turn. -/
inductive Reply
  | returned (count : Nat) (buf : Bytes)
  | thrown (e : Thrown)
  | waiting
deriving DecidableEq

/-- The bytes that a call hands out. -/
def Reply.text : Reply → Bytes
  | returned _ buf => buf
  | thrown _ => []
  | waiting => []

namespace TcpSocket

/-- `TcpSocket()`. -/
def new (fresh : Nat → UInt8) : TcpSocket :=
  { buffer := .new 1024 fresh, max_size := 512000, received := [], begun := [] }

/-- What a buffer holds that nobody read yet. -/
def unread (s : TcpSocket) : Bytes := s.buffer.unread

/-- The buffer with room for what comes next, if that is needed and allowed. -/
def makeRoom (s : TcpSocket) (fresh : Nat → UInt8) : Except Thrown TcpSocket :=
  let free_bytes := s.buffer.size - s.buffer.pos
  if free_bytes = 0 ∧ s.max_size ≤ s.buffer.size then
    .error (.outOfMemory (bytes ("yeah have reached the maximum allowed memory " ++
      "(try increasing the TcpSocket::max_size)")))
  else if free_bytes ≤ 256 then
    let new_size := s.buffer.size + 1024
    let new_size := if s.max_size < new_size then s.max_size else new_size
    .ok { s with buffer := s.buffer.resize new_size fresh }
  else .ok s

/-- `Socket::recv` wrote `data` at the position of the buffer. -/
def stored (s : TcpSocket) (data : Bytes) : TcpSocket :=
  { s with buffer := s.buffer.store s.buffer.pos data, received := s.received ++ data }

/-- `_bufferedRecv`. -/
def bufferedRecv (s : TcpSocket) (t : Turn) : Except Thrown Nat × TcpSocket :=
  let s := { s with buffer := s.buffer.toggle true, begun := s.begun ++ [Begun.refill s.buffer] }
  match s.makeRoom t.fresh with
  | .error e => (.error e, s)
  | .ok s =>
    match recv t (s.buffer.size - s.buffer.pos) NOW with
    | .error e => (.error e, s)
    | .ok data =>
      let s := s.stored data
      let bytes_read := data.length
      if 0 < bytes_read then
        let b := s.buffer.setLength (bytes_read + s.buffer.pos)
        match b.setPosition (bytes_read + b.pos) with
        | .error e => (.error e, { s with buffer := b })
        | .ok b => (.ok bytes_read, { s with buffer := b.toggle false })
      else (.ok bytes_read, { s with buffer := s.buffer.toggle false })

/-- `_buffer.readUntil`. -/
def search (s : TcpSocket) (d : Delimiter) : Nat × Bytes × TcpSocket :=
  let r := s.buffer.readUntil d
  (r.1, r.2.1, { s with buffer := r.2.2, begun := s.begun ++ [Begun.search d s.buffer] })

/-- `readUntil` that waits for ever. -/
def readUntilForever (d : Delimiter) : TcpSocket → List Turn → Reply × TcpSocket
  | s, [] => (.waiting, s)
  | s, t :: ts =>
    match isRecvReady t.wait with
    | .error e => (.thrown e, s)
    | .ok false => readUntilForever d s ts
    | .ok true =>
      match s.bufferedRecv t with
      | (.error e, s) => (.thrown e, s)
      | (.ok _, s) =>
        match s.search d with
        | (n, buf, s) => if 0 < n then (.returned buf.length buf, s) else readUntilForever d s ts

/-- `readUntil` that waits for `msec` at most; the clock counts seconds since `timer`. -/
def readUntilTimer (d : Delimiter) (timer : UInt32) : TcpSocket → Int → List Turn → Reply × TcpSocket
  | s, msec, [] => if 0 < msec then (.waiting, s) else (.returned 0 [], s)
  | s, msec, t :: ts =>
    if 0 < msec then
      match isRecvReady t.wait with
      | .error e => (.thrown e, s)
      | .ok false => (.returned 0 [], s)
      | .ok true =>
        match s.bufferedRecv t with
        | (.error e, s) => (.thrown e, s)
        | (.ok _, s) =>
          match s.search d with
          | (n, buf, s) =>
            if 0 < n then (.returned buf.length buf, s)
            else readUntilTimer d timer s (msec - (t.timer - timer).toInt32.toInt) ts
    else (.returned 0 [], s)

/-- `readUntil`, of a character or a `String`; `start` is the clock before the timed wait. -/
def readUntil (s : TcpSocket) (d : Delimiter) (msec : Int) (start : UInt32) (ts : List Turn) :
    Reply × TcpSocket :=
  match s.search d with
  | (n, buf, s) =>
    if 0 < n then (.returned buf.length buf, s)
    else if msec = NOW then
      match ts with
      | [] => (.waiting, s)
      | t :: _ =>
        match s.bufferedRecv t with
        | (.error e, s) => (.thrown e, s)
        | (.ok _, s) =>
          match s.search d with
          | (n, buf, s) => (.returned n buf, s)
    else if msec = FOREVER then readUntilForever d s ts
    else readUntilTimer d start s msec ts

/-- What a `_buffer.read(String&)` gives its caller. -/
def replied (s : TcpSocket) : Except Thrown (Nat × Bytes) × ByteBuffer → Reply × TcpSocket
  | (.error e, b) => (.thrown e, { s with buffer := b })
  | (.ok (n, buf), b) => (.returned n buf, { s with buffer := b })

/-- `readAll`. -/
def readAll (len : UInt32) : TcpSocket → List Turn → Reply × TcpSocket
  | s, [] =>
    if s.buffer.remaining < len.toNat then (.waiting, s)
    else s.replied (s.buffer.readString (len - 1).toNat)
  | s, t :: ts =>
    if s.buffer.remaining < len.toNat then
      match isRecvReady t.wait with
      | .error e => (.thrown e, s)
      | .ok false => (.thrown (.io (bytes "timed out waiting for readAll to complete")), s)
      | .ok true =>
        match s.bufferedRecv t with
        | (.error e, s) => (.thrown e, s)
        | (.ok _, s) => readAll len s ts
    else s.replied (s.buffer.readString (len - 1).toNat)

/-- A `Socket::recv` that goes past the buffer to the caller. -/
def direct (s : TcpSocket) (len : Nat) (msec : Int) : List Turn → Reply × TcpSocket
  | [] => (.waiting, s)
  | t :: _ =>
    match recv t len msec with
    | .error e => (.thrown e, s)
    | .ok data => (.returned data.length data, s)

/-- `read(byte*)`. -/
def read (s : TcpSocket) (len : UInt32) (msec : Int) (ts : List Turn) : Reply × TcpSocket :=
  if 0 < s.buffer.remaining then
    match s.buffer.read len.toNat with
    | (.error e, b) => (.thrown e, { s with buffer := b })
    | (.ok raw, b) => (.returned len.toNat raw, { s with buffer := b })
  else s.direct len.toNat msec ts

/-- `read(String&)`. -/
def readString (s : TcpSocket) (len : UInt32) (msec : Int) (ts : List Turn) : Reply × TcpSocket :=
  if 0 < s.buffer.remaining then s.replied (s.buffer.readString len.toNat)
  else s.direct len.toNat msec ts

end TcpSocket

/-- The calls of a `TcpSocket` that use its buffer. -/
inductive Call
  | bufferedRecv
  | readUntil (d : Delimiter) (msec : Int) (start : UInt32)
  | readAll (len : UInt32)
  | read (len : UInt32) (msec : Int)
  | readString (len : UInt32) (msec : Int)

namespace TcpSocket

/-- One call, in the turns that the world makes meanwhile. -/
def call (s : TcpSocket) : Call → List Turn → Reply × TcpSocket
  | .bufferedRecv, [] => (.waiting, s)
  | .bufferedRecv, t :: _ =>
    match s.bufferedRecv t with
    | (.error e, s) => (.thrown e, s)
    | (.ok n, s) => (.returned n [], s)
  | .readUntil d msec start, ts => s.readUntil d msec start ts
  | .readAll len, ts => s.readAll len ts
  | .read len msec, ts => s.read len msec ts
  | .readString len msec, ts => s.readString len msec ts

/-- The sockets after calls that `allowed` lets pass, each with how it ended. -/
inductive Run (allowed : Call → Reply → Prop) : List (Call × Reply) → TcpSocket → Prop
  | new (fresh) : Run allowed [] (.new fresh)
  | call {done s c ts} : Run allowed done s → allowed c (s.call c ts).1 →
      Run allowed (done ++ [(c, (s.call c ts).1)]) (s.call c ts).2

end TcpSocket

end Srl
