import Srl.ByteBufferWrites
import Srl.CheckedInt
import Srl.EndAroundCarry

namespace Srl

open CheckedInt Cells

namespace CheckSum

/-- `*buf`: two bytes as a `uint16`. -/
def word (a b : UInt8) : Nat := a.toNat + 256 * b.toNat

/-- `doIpCheckSum`, which adds the bytes to `_sum`; there is no result when it overflows. -/
def doIpCheckSum (sum : Int) : Bytes → Option Int
  | a :: b :: buf => do doIpCheckSum (← int (sum + word a b)) buf
  | [a] => int (sum + a.toNat)
  | [] => some sum

theorem shift_toNat (f : UInt32) : (f >>> 16).toNat = f.toNat / 65536 := by
  rw [UInt32.toNat_shiftRight]
  exact Nat.shiftRight_eq_div_pow _ _

theorem high_ne_zero_iff (f : UInt32) : f >>> 16 ≠ 0 ↔ 65536 ≤ f.toNat := by
  have hzero : (0 : UInt32).toNat = 0 := rfl
  rw [ne_eq, ← UInt32.toNat_inj, shift_toNat, hzero]
  omega

theorem round_toNat (f : UInt32) : ((f >>> 16) + (f &&& 0x0000FFFF)).toNat = EndAroundCarry.carry 65536 f.toNat := by
  have hlt := f.toNat_lt
  have hmask : (f &&& 0x0000FFFF).toNat = f.toNat % 65536 := by
    rw [UInt32.toNat_and]
    exact Nat.and_two_pow_sub_one_eq_mod f.toNat 16
  rw [UInt32.toNat_add, shift_toNat, hmask, EndAroundCarry.carry]
  omega

/-- The loop of `value16`; every round makes the value smaller. -/
def foldLoop (f : UInt32) : UInt32 :=
  if f >>> 16 ≠ 0 then foldLoop ((f >>> 16) + (f &&& 0x0000FFFF)) else f
termination_by f.toNat
decreasing_by
  next h =>
    rw [round_toNat]
    exact EndAroundCarry.carry_lt (by decide) ((high_ne_zero_iff f).mp h)

def value16 (sum : Int) : UInt16 := (~~~foldLoop (UInt32.ofInt sum)).toUInt16

theorem foldLoop_toNat (f : UInt32) : (foldLoop f).toNat = EndAroundCarry.fold 65536 f.toNat := by
  induction f using foldLoop.induct with
  | case1 f h ih =>
    rw [foldLoop, if_pos h, ih, round_toNat]
    exact (EndAroundCarry.fold_of_le (by decide) ((high_ne_zero_iff f).mp h)).symm
  | case2 f h =>
    rw [foldLoop, if_neg h]
    exact (EndAroundCarry.fold_of_lt (Nat.not_le.mp fun hle => h ((high_ne_zero_iff f).mpr hle))).symm

/-- The complement of the folded sum. -/
theorem value16_toNat {n : Nat} (hn : n < 2 ^ 32) : (value16 n).toNat = 65535 - EndAroundCarry.fold 65536 n := by
  have hof : (UInt32.ofInt n).toNat = n := by
    simp only [UInt32.ofInt, UInt32.toNat_ofNat']
    omega
  have hdigit := (EndAroundCarry.fold_spec (by decide : 2 ≤ 65536) n).1
  rw [value16, UInt32.toNat_toUInt16, UInt32.toNat_not, foldLoop_toNat, hof, UInt32.size]
  omega

/-- A sum to which its own checksum is added has the checksum 0. -/
theorem value16_complement {n : Nat} (hn : n < 2 ^ 31) : value16 (n + (value16 n).toNat : Nat) = 0 := by
  have hvalue := @value16_toNat n (by omega)
  have hsmall := (value16 n).toNat_lt
  have hfold := EndAroundCarry.fold_complement (by decide : 2 ≤ 65536) n
  have hzero := @value16_toNat (n + (value16 n).toNat) (by omega)
  rw [hvalue] at hzero ⊢
  rw [hfold] at hzero
  exact UInt16.toNat_inj.mp hzero

/-- The sum of the words, and of the byte that is left. -/
def wordSum : Bytes → Nat
  | a :: b :: buf => word a b + wordSum buf
  | [a] => a.toNat
  | [] => 0

theorem word_le (a b : UInt8) : word a b ≤ 65535 := by
  have ha := a.toNat_lt
  have hb := b.toNat_lt
  unfold word
  omega

theorem wordSum_le (buf : Bytes) : 2 * wordSum buf ≤ 65535 * buf.length := by
  induction buf using wordSum.induct with
  | case1 a b buf ih =>
    have hword := word_le a b
    rw [wordSum, List.length_cons, List.length_cons]
    omega
  | case2 a =>
    have ha := a.toNat_lt
    rw [wordSum, List.length_singleton]
    omega
  | case3 => exact Nat.le_refl _

/-- Nothing overflows while the sum fits. -/
theorem doIpCheckSum_eq {n : Nat} {buf : Bytes} (h : n + wordSum buf ≤ 2147483647) :
    doIpCheckSum n buf = some ((n + wordSum buf : Nat) : Int) := by
  induction buf using wordSum.induct generalizing n with
  | case1 a b buf ih =>
    rw [wordSum] at h ⊢
    have hsum : (n : Int) + word a b = ((n + word a b : Nat) : Int) := (Int.natCast_add n (word a b)).symm
    rw [doIpCheckSum, hsum, int_bind ⟨by omega, by omega⟩, ih (by omega), Nat.add_assoc]
  | case2 a =>
    rw [wordSum] at h ⊢
    exact int_eq ⟨by omega, by omega⟩
  | case3 => rfl

end CheckSum

/-- A `RawMessage` of the ICMP protocol: its buffer, at whose beginning the header stands, and `_sum` of its
checksum. -/
structure RawMessage where
  buffer : ByteBuffer
  sum : Int

namespace RawMessage

/-- The bytes of the message. -/
def message (m : RawMessage) : Bytes := m.buffer.buffer.take m.buffer.length

/-- `doChecksum`; the field `checksum` of the header has the offset 2. -/
def doChecksum (m : RawMessage) : Option RawMessage := do
  let sum ← CheckSum.doIpCheckSum 0 m.message
  let b := m.buffer.reach m.buffer.length
  pure { buffer := b.store 2 (Binary.littleEndian 2 (CheckSum.value16 sum).toNat), sum }

/-- What a message has that a checksum is made for. -/
structure Prepared (m : RawMessage) : Prop where
  length_range : 8 ≤ m.buffer.length ∧ m.buffer.length ≤ 65535
  length_le : m.buffer.length ≤ m.buffer.size
  zeroed : window m.buffer.buffer 2 4 = [0, 0]

variable {m : RawMessage}

theorem Prepared.split (h : Prepared m) : ∃ a b rest, m.buffer.buffer = a :: b :: 0 :: 0 :: rest := by
  have hlen : 8 ≤ m.buffer.buffer.length := h.length_range.1.trans h.length_le
  have hfront : (m.buffer.buffer.take 4).take 2 ++ window m.buffer.buffer 2 4 = m.buffer.buffer.take 4 :=
    List.take_append_drop 2 _
  have hall : m.buffer.buffer.take 4 ++ m.buffer.buffer.drop 4 = m.buffer.buffer := List.take_append_drop 4 _
  have htwo : ((m.buffer.buffer.take 4).take 2).length = 2 := by
    rw [List.length_take, List.length_take]
    omega
  obtain ⟨a, b, hab⟩ := List.length_eq_two.mp htwo
  rw [hab, h.zeroed] at hfront
  rw [← hfront] at hall
  exact ⟨a, b, _, hall.symm⟩

theorem word_littleEndian (c : UInt16) :
    CheckSum.word (UInt8.ofNat c.toNat) (UInt8.ofNat (c.toNat / 256)) = c.toNat := by
  have hc := c.toNat_lt
  rw [CheckSum.word, UInt8.toNat_ofNat', UInt8.toNat_ofNat']
  omega

/-- The words of the message with a checksum, and those of the message without one. -/
theorem wordSum_stored (a b : UInt8) (rest : Bytes) (c : UInt16) :
    CheckSum.wordSum (a :: b :: (Binary.littleEndian 2 c.toNat ++ rest)) =
      CheckSum.wordSum (a :: b :: 0 :: 0 :: rest) + c.toNat := by
  have hzero : CheckSum.word 0 0 = 0 := rfl
  show CheckSum.word a b + (CheckSum.word (UInt8.ofNat c.toNat) (UInt8.ofNat (c.toNat / 256)) + CheckSum.wordSum rest) =
    CheckSum.word a b + (CheckSum.word 0 0 + CheckSum.wordSum rest) + c.toNat
  rw [word_littleEndian, hzero]
  omega

theorem doIpCheckSum_message {buf : Bytes} (h : buf.length ≤ 65535) :
    CheckSum.wordSum buf < 2 ^ 31 ∧ CheckSum.doIpCheckSum 0 buf = some (CheckSum.wordSum buf : Int) := by
  have hle := CheckSum.wordSum_le buf
  have hrun := @CheckSum.doIpCheckSum_eq 0 buf (by omega)
  rw [Nat.zero_add] at hrun
  exact ⟨by omega, hrun⟩

/-- The checksum takes the place of the zeros, and with it the sum of all words folds to nothing. -/
theorem Prepared.summed (h : Prepared m) : ∃ m' a b c rest, m.doChecksum = some m' ∧
    m'.buffer = m.buffer.store 2 (Binary.littleEndian 2 c) ∧ m.message = a :: b :: 0 :: 0 :: rest ∧
    m'.message = a :: b :: (Binary.littleEndian 2 c ++ rest) ∧
    ∃ sum, CheckSum.doIpCheckSum 0 m'.message = some sum ∧ CheckSum.value16 sum = 0 := by
  obtain ⟨a, b, rest, hbuffer⟩ := h.split
  obtain ⟨hlow, hhigh⟩ := h.length_range
  have hsize := h.length_le
  obtain ⟨k, hk⟩ : ∃ k, m.buffer.length = k + 4 := ⟨m.buffer.length - 4, by omega⟩
  have hmessage : m.message = a :: b :: 0 :: 0 :: rest.take k := by
    rw [message, hbuffer, hk]
    rfl
  have hlength : ∀ c d, (a :: b :: c :: d :: rest.take k).length ≤ 65535 := by
    intro c d
    simp only [List.length_cons, List.length_take]
    omega
  obtain ⟨hfew, hsum⟩ := doIpCheckSum_message (hlength 0 0)
  generalize hS : CheckSum.wordSum (a :: b :: 0 :: 0 :: rest.take k) = S at hfew hsum
  obtain ⟨c, hc⟩ : ∃ c, CheckSum.value16 S = c := ⟨_, rfl⟩
  obtain ⟨-, hsum'⟩ := doIpCheckSum_message (hlength (UInt8.ofNat c.toNat) (UInt8.ofNat (c.toNat / 256)))
  let m' : RawMessage := ⟨m.buffer.store 2 (Binary.littleEndian 2 c.toNat), S⟩
  have hstored : m'.message = a :: b :: (Binary.littleEndian 2 c.toNat ++ rest.take k) := by
    have hmiddle : overwrite (a :: b :: 0 :: 0 :: rest) 2 (Binary.littleEndian 2 c.toNat) =
        [a, b] ++ (Binary.littleEndian 2 c.toNat ++ rest) := @overwrite_middle _ [a, b] [0, 0] rest _ 2 rfl rfl
    show (overwrite m.buffer.buffer 2 _).take m.buffer.length = _
    rw [hbuffer, hk, hmiddle]
    rfl
  refine ⟨m', a, b, c.toNat, rest.take k, ?_, rfl, hmessage, hstored, (S + c.toNat : Nat), ?_, ?_⟩
  · rw [doChecksum, hmessage, hsum, ByteBuffer.outside_reach hsize]
    subst hc
    rfl
  · rw [hstored, ← hS, ← wordSum_stored]
    exact hsum'
  · rw [← hc]
    exact CheckSum.value16_complement hfew

/-- The checksum that is stored makes the sum of all words fold to nothing. -/
theorem doChecksum_verifies (h : Prepared m) : ∃ m' sum, m.doChecksum = some m' ∧
    m'.buffer.outside = m.buffer.outside ∧ CheckSum.doIpCheckSum 0 m'.message = some sum ∧
    CheckSum.value16 sum = 0 := by
  obtain ⟨m', _, _, c, _, hrun, hbuffer, -, -, sum, hsum, hzero⟩ := h.summed
  refine ⟨m', sum, hrun, ?_, hsum, hzero⟩
  have hfour : 2 + (Binary.littleEndian 2 c).length ≤ m.buffer.size :=
    Nat.le_trans (by show 4 ≤ 8; decide) (h.length_range.1.trans h.length_le)
  rw [hbuffer, ByteBuffer.outside_store hfour]

/-- An echo request with one byte of data. -/
theorem doChecksum_verifies_echo : ∃ m' sum,
    (⟨⟨[8, 0, 0, 0, 1, 0, 1, 0, 88], 9, 0, false⟩, 0⟩ : RawMessage).doChecksum = some m' ∧
      m'.buffer.outside = false ∧ CheckSum.doIpCheckSum 0 m'.message = some sum ∧ CheckSum.value16 sum = 0 :=
  doChecksum_verifies ⟨by decide, by decide, by decide⟩

end RawMessage

/-- A `RawMessage` that is sent. `_header` points to the beginning of the buffer, unless the memory of the buffer was
allocated anew after the last `sync`, for then it may be elsewhere. -/
structure OutboundMessage where
  raw : RawMessage
  _data_size : UInt16
  moved : Bool

namespace OutboundMessage

open Binary

variable (fresh : ByteBuffer → Nat → UInt8)

/-- The first `update`, with the `sync` in it. -/
def updateHeader (icmp_type code : UInt8) (id seq msg_size : UInt16) (m : OutboundMessage) : OutboundMessage :=
  let b := m.raw.buffer
  let b := if b.size < msg_size.toNat then b.resize msg_size.toNat (fresh b) else b
  let b := b.store 0 [icmp_type]
  let b := b.store 1 [code]
  let b := b.store 4 (littleEndian 2 id.toNat)
  let b := b.store 6 (littleEndian 2 seq.toNat)
  { m with raw := { m.raw with buffer := b.setLength msg_size.toNat }, moved := false }

def deadmeat : Item := .array .int64 [0x474E4F50474E4950#64]

def deadnull : Item := .array .byte [0x58#8]

def fillData (data_size : UInt16) (m : OutboundMessage) : Except Thrown OutboundMessage :=
  let fill_size : Int := data_size.toNat - 8
  if (m._data_size.toNat : Int) ≠ fill_size then do
    let b ← m.raw.buffer.setPosition 16
    let b' := b.writeAll fresh (List.replicate (fill_size.tdiv 8).toNat deadmeat)
    let b' := b'.writeAll fresh (List.replicate (fill_size.tmod 8).toNat deadnull)
    pure { raw := { m.raw with buffer := b' }, _data_size := UInt16.ofInt fill_size,
           moved := m.moved || decide (b'.size ≠ b.size) }
  else pure m

/-- `doChecksum`, which stores nothing in the message when `_header` points elsewhere. -/
def doChecksum (m : OutboundMessage) : Option OutboundMessage := do
  let raw ← m.raw.doChecksum
  pure (if m.moved then { m with raw := { m.raw with sum := raw.sum } } else { m with raw := raw })

/-- The `update` for echo requests; `now` is what the system timer says. -/
def update (now : BitVec 64) (id sequence data_size : UInt16) (m : OutboundMessage) :
    Except Thrown (Option OutboundMessage) := do
  let m := m.updateHeader fresh 8 0 id sequence (data_size + 8)
  let b := (m.raw.buffer.store 8 (littleEndian 8 now.toNat)).store 2 (littleEndian 2 0)
  let m ← fillData fresh data_size { m with raw := { m.raw with buffer := b } }
  pure m.doChecksum

/-- The constructor for messages that are sent. -/
def new (memory : Nat → UInt8) (icmp_type : UInt8) (id seq msg_size : UInt16) (code : UInt8) : OutboundMessage :=
  updateHeader fresh icmp_type code id seq msg_size ⟨⟨ByteBuffer.new msg_size.toNat memory, 0⟩, 0, false⟩

/-- What the data of a message is filled with behind the time. -/
def pattern (n : Nat) : Bytes := (List.replicate (n / 8) (bytes "PINGPONG")).flatten ++ List.replicate (n % 8) 88

/-- The header with a checksum, and the time. -/
def head (checksum : Nat) (id seq : UInt16) (now : BitVec 64) : Bytes :=
  8 :: 0 :: (littleEndian 2 checksum ++ (littleEndian 2 id.toNat ++ (littleEndian 2 seq.toNat ++
    littleEndian 8 now.toNat)))

/-- What may be sent again: the memory comes in blocks of 16 bytes, and the data of `_data_size` is there. -/
structure Ready (m : OutboundMessage) : Prop where
  inside : m.raw.buffer.outside = false
  few : m.raw.buffer.size < 2 ^ 31
  blocks : m.raw.buffer.size % 16 = 0
  room : m._data_size.toNat ≤ 65519 → 16 + m._data_size.toNat ≤ m.raw.buffer.size
  filled : m._data_size.toNat ≤ 65519 →
    (m.raw.buffer.buffer.drop 16).take m._data_size.toNat = pattern m._data_size.toNat

/-- An echo request as it is sent: the fields, the time and the data, with a checksum that verifies. -/
structure Sends (now : BitVec 64) (id seq data_size : UInt16) (m : OutboundMessage) : Prop where
  message : ∃ c, m.raw.message =
    (head c id seq now ++ pattern (data_size.toNat - 8)).take (data_size.toNat + 8)
  verifies : ∃ sum, CheckSum.doIpCheckSum 0 m.raw.message = some sum ∧ CheckSum.value16 sum = 0

variable {fresh} {m : OutboundMessage} {b : ByteBuffer} {now : BitVec 64} {id seq data_size : UInt16}

theorem length_head (c : Nat) : (head c id seq now).length = 16 := rfl

theorem length_pattern (n : Nat) : (pattern n).length = n := by
  have hword : (bytes "PINGPONG").length = 8 := rfl
  rw [pattern, List.length_append, List.length_flatten, List.map_replicate, hword, List.length_replicate,
    List.sum_replicate_nat]
  omega

/-- The stores into a header, over whatever stood there. -/
theorem stored_head (h : 16 ≤ b.size) :
    ((((((b.store 0 [8]).store 1 [0]).store 4 (littleEndian 2 id.toNat)).store 6 (littleEndian 2 seq.toNat)).setLength
      data_size.toNat).store 8 (littleEndian 8 now.toNat)).store 2 (littleEndian 2 0) =
    { b with buffer := head 0 id seq now ++ b.buffer.drop 16, length := data_size.toNat } := by
  have hset : ∀ (c : ByteBuffer) n, (c.setLength n).size = c.size := fun _ _ => rfl
  have hid : (littleEndian 2 id.toNat).length = 2 := rfl
  have hseq : (littleEndian 2 seq.toNat).length = 2 := rfl
  have hnow : (littleEndian 8 now.toNat).length = 8 := rfl
  have hzero : (littleEndian 2 0).length = 2 := rfl
  refine (ByteBuffer.mk.injEq ..).mpr ⟨?_, rfl, rfl, ?_⟩
  · obtain ⟨cells, length, pos, outside⟩ := b
    match cells, h with
    | c0 :: c1 :: c2 :: c3 :: c4 :: c5 :: c6 :: c7 :: c8 :: c9 :: c10 :: c11 :: c12 :: c13 :: c14 :: c15 :: rest, _ =>
      simp [ByteBuffer.store, ByteBuffer.setLength, overwrite, littleEndian, head]
  · show (ByteBuffer.store _ _ _).outside = _
    rw [ByteBuffer.outside_store, ByteBuffer.outside_store]
    · show (ByteBuffer.store _ _ _).outside = _
      rw [ByteBuffer.outside_store, ByteBuffer.outside_store, ByteBuffer.outside_store, ByteBuffer.outside_store]
      all_goals
        simp only [ByteBuffer.size_store, List.length_singleton, hid, hseq]
        omega
    all_goals
      simp only [ByteBuffer.size_store, hset, hnow, hzero]
      omega

theorem writeData_size_eq {data : Bytes} (hroom : data.length + b.pos < b.size) (hfew : b.size < 2 ^ 31) :
    (b.writeData fresh data).2.size = b.size := by
  rw [ByteBuffer.writeData_eq (by omega), ByteBuffer.size_store]
  show (ByteBuffer.store _ _ _).size = _
  rw [ByteBuffer.size_store, ByteBuffer.withRoom, if_neg (by omega)]

/-- A number of writes of the same bytes behind each other, where there is room for them and a terminator. -/
theorem writeAll_replicate {item : Item} {more : Bytes} (hitem : ∀ b : ByteBuffer, b.write fresh item =
    b.writeData fresh more) (hne : more ≠ []) (n : Nat) {data : Bytes} (hpos : b.pos = data.length)
    (hstored : window b.buffer 0 data.length = data) (hroom : n ≠ 0 → data.length + n * more.length < b.size)
    (hfew : b.size < 2 ^ 31) :
    ∃ b', b.writeAll fresh (List.replicate n item) = b' ∧ b'.size = b.size ∧ b'.outside = b.outside ∧
      b'.pos = data.length + n * more.length ∧ b'.length = (if n = 0 then b.length else b'.pos) ∧
      window b'.buffer 0 b'.pos = data ++ (List.replicate n more).flatten := by
  induction n generalizing b data with
  | zero => exact ⟨b, rfl, rfl, rfl, by simpa using hpos, rfl, by simpa [hpos] using hstored⟩
  | succ n ih =>
    replace hroom := hroom (Nat.succ_ne_zero n)
    rw [Nat.succ_mul] at hroom
    have hlen : (data ++ more).length = data.length + more.length := List.length_append
    obtain ⟨hholds, hout⟩ := @ByteBuffer.writeData_spec b fresh data more hpos (by omega) hstored
      (List.append_ne_nil_of_right_ne_nil _ hne) (by omega)
    have hsize := @writeData_size_eq fresh b more (by omega) hfew
    obtain ⟨b', hrun, hsize', hout', hpos', hlength', hstored'⟩ := ih hholds.pos hholds.stored (fun _ => by omega)
      (by omega)
    have hend : b'.pos = data.length + (n + 1) * more.length := by
      rw [hpos', hlen, Nat.succ_mul]
      omega
    refine ⟨b', ?_, hsize'.trans hsize, hout'.trans hout, hend, ?_, ?_⟩
    · rw [← hrun, ← hitem]
      rfl
    · rw [if_neg (Nat.succ_ne_zero n), hlength']
      split
      next hzero =>
        subst hzero
        rw [hholds.length, hpos', Nat.zero_mul, Nat.add_zero]
      next => rfl
    · rw [hstored', List.replicate_succ, List.flatten_cons, List.append_assoc]

theorem fill_words (d : Nat) : (((d : Int) - 8).tdiv 8).toNat = (d - 8) / 8 ∧
    (((d : Int) - 8).tmod 8).toNat = (d - 8) % 8 := by
  by_cases hd : 8 ≤ d
  · obtain ⟨k, rfl⟩ := Nat.exists_eq_add_of_le' hd
    have hk : ((k + 8 : Nat) : Int) - 8 = (k : Int) := by omega
    rw [hk, Nat.add_sub_cancel]
    exact ⟨rfl, rfl⟩
  · have hnone : ∀ d : Nat, d < 8 → (((d : Int) - 8).tdiv 8).toNat = (d - 8) / 8 ∧
        (((d : Int) - 8).tmod 8).toNat = (d - 8) % 8 := by decide
    exact hnone d (Nat.not_le.mp hd)

theorem write_deadmeat (b : ByteBuffer) : b.write fresh deadmeat = b.writeData fresh (bytes "PINGPONG") := rfl

theorem write_deadnull (b : ByteBuffer) : b.write fresh deadnull = b.writeData fresh [88] := rfl

/-- Behind the first 16 bytes the data is there, whether it was already or is written now. -/
theorem fillData_spec {d : Nat} (hd : data_size.toNat = d) (hmoved : m.moved = false)
    (hsize : 16 ≤ m.raw.buffer.size) (hroom : d + 8 < m.raw.buffer.size) (hfew : m.raw.buffer.size < 2 ^ 31)
    (hlength : m.raw.buffer.length = d + 8)
    (hfilled : m._data_size.toNat ≤ 65519 →
      (m.raw.buffer.buffer.drop 16).take m._data_size.toNat = pattern m._data_size.toNat) (hmax : d ≤ 65527) :
    ∃ m', fillData fresh data_size m = .ok m' ∧ m'.moved = false ∧ m'.raw.buffer.outside = m.raw.buffer.outside ∧
      m'.raw.buffer.size = m.raw.buffer.size ∧ m'.raw.buffer.length = d + 8 ∧
      m'.raw.buffer.buffer.take (16 + (d - 8)) = m.raw.buffer.buffer.take 16 ++ pattern (d - 8) ∧
      (m'._data_size.toNat ≤ 65519 → m'._data_size.toNat = d - 8) := by
  unfold fillData
  rw [hd]
  by_cases hsame : (m._data_size.toNat : Int) = (d : Int) - 8
  · have hn : m._data_size.toNat = d - 8 := by omega
    refine ⟨m, if_neg (not_not.mpr hsame), hmoved, rfl, rfl, hlength, ?_, fun _ => hn⟩
    rw [List.take_add, ← hn, hfilled (by omega)]
  · obtain ⟨hwords, hrest⟩ := fill_words d
    have hcells : m.raw.buffer.buffer.length = m.raw.buffer.size := rfl
    have hsixteen : (m.raw.buffer.buffer.take 16).length = 16 := List.length_take_of_le hsize
    have height : (bytes "PINGPONG").length = 8 := rfl
    let b : ByteBuffer := { m.raw.buffer with pos := 16 }
    obtain ⟨b₁, hrun₁, hsize₁, hout₁, hpos₁, hlength₁, hstored₁⟩ := @writeAll_replicate fresh b deadmeat _
      write_deadmeat (by decide) ((d - 8) / 8) (m.raw.buffer.buffer.take 16) hsixteen.symm
      (by rw [hsixteen, window_zero]) (fun hn => by rw [hsixteen, height]; show _ < m.raw.buffer.size; omega) hfew
    rw [hsixteen, height] at hpos₁
    have hlen₁ : (m.raw.buffer.buffer.take 16 ++ (List.replicate ((d - 8) / 8) (bytes "PINGPONG")).flatten).length =
        16 + (d - 8) / 8 * 8 := by
      rw [← hstored₁, length_window, ← ByteBuffer.size, hpos₁, hsize₁]
      show min _ m.raw.buffer.size - 0 = _
      omega
    obtain ⟨b₂, hrun₂, hsize₂, hout₂, hpos₂, hlength₂, hstored₂⟩ := @writeAll_replicate fresh b₁ deadnull _
      write_deadnull (by decide) ((d - 8) % 8) _ (hpos₁.trans hlen₁.symm) (by rw [hlen₁, ← hpos₁, hstored₁])
      (fun hn => by rw [hlen₁, hsize₁, List.length_singleton]; show _ < m.raw.buffer.size; omega)
      (hsize₁.trans_lt hfew)
    rw [hlen₁, List.length_singleton] at hpos₂
    have hend : b₂.pos = 16 + (d - 8) := by omega
    have hposition : m.raw.buffer.setPosition 16 = .ok b := by
      rw [ByteBuffer.setPosition, if_neg (Nat.not_lt.mpr hsize)]
    refine ⟨⟨⟨b₂, m.raw.sum⟩, UInt16.ofInt ((d : Int) - 8), false⟩, ?_, rfl, hout₂.trans hout₁,
      hsize₂.trans hsize₁, ?_, ?_, ?_⟩
    · rw [if_pos hsame, hposition, hwords, hrest]
      show Except.ok _ = Except.ok _
      rw [hrun₁, hrun₂, hmoved, hsize₂, hsize₁]
      simp
    · show b₂.length = d + 8
      rw [hlength₂, hlength₁]
      have hfront : b.length = d + 8 := hlength
      split
      next hzero =>
        split
        next hnone => exact hfront
        next => omega
      next => omega
    · show b₂.buffer.take _ = _
      rw [hend, window_zero] at hstored₂
      rw [hstored₂, pattern, List.append_assoc, List.flatten_replicate_singleton]
    · show (UInt16.ofInt _).toNat ≤ _ → _
      intro hle
      simp only [UInt16.ofInt, UInt16.toNat_ofNat'] at hle ⊢
      omega

/-- The buffer has room for a message and a terminator then, and the data is kept. -/
theorem Ready.grown (h : Ready m) {n : Nat} (hn : 8 ≤ n) (hmax : n ≤ 65535) (hne : m.raw.buffer.size ≠ n) : ∃ b,
    (if m.raw.buffer.size < n then m.raw.buffer.resize n (fresh m.raw.buffer) else m.raw.buffer) = b ∧
      b.outside = false ∧ 16 ≤ b.size ∧ n < b.size ∧ b.size < 2 ^ 31 ∧ b.size % 16 = 0 ∧
      ∀ k, 16 + k ≤ m.raw.buffer.size → (b.buffer.drop 16).take k = (m.raw.buffer.buffer.drop 16).take k := by
  have hblocks := h.blocks
  split
  next hless =>
    obtain ⟨hsize, -, -, hout, hwindow⟩ := @ByteBuffer.resize_spec m.raw.buffer n (fresh m.raw.buffer) (by omega)
      (by omega)
    refine ⟨_, rfl, hout.trans h.inside, by omega, by omega, by omega, by omega, fun k hk => ?_⟩
    have hkept := hwindow 16 (16 + k) hk (by omega)
    simpa [window, List.drop_take] using hkept
  next => exact ⟨_, rfl, h.inside, by omega, by omega, h.few, hblocks, fun _ _ => rfl⟩

/-- The checksum changes nothing behind the header. -/
theorem drop_checksum {cells : Bytes} (h : cells.take 16 = head 0 id seq now) (c : Nat) :
    (overwrite cells 2 (littleEndian 2 c)).drop 16 = cells.drop 16 := by
  have hsplit : head 0 id seq now ++ cells.drop 16 = cells := h ▸ List.take_append_drop 16 cells
  have hmiddle := @overwrite_middle _ [8, 0] [0, 0] (littleEndian 2 id.toNat ++ (littleEndian 2 seq.toNat ++
    littleEndian 8 now.toNat) ++ cells.drop 16) (littleEndian 2 c) 2 rfl rfl
  rw [← hsplit]
  exact (congrArg (List.drop 16) hmiddle).trans rfl

/-- What is laid out behind a header without a checksum is sent with one. -/
theorem doChecksum_sends {d : Nat} (hd : data_size.toNat = d) (hmax : d ≤ 65527) (hmoved : m.moved = false)
    (hinside : m.raw.buffer.outside = false) (hfew : m.raw.buffer.size < 2 ^ 31) (hblocks : m.raw.buffer.size % 16 = 0)
    (hsize : 16 ≤ m.raw.buffer.size) (hspace : d + 8 < m.raw.buffer.size) (hlength : m.raw.buffer.length = d + 8)
    (hlaid : m.raw.buffer.buffer.take (16 + (d - 8)) = head 0 id seq now ++ pattern (d - 8))
    (hds : m._data_size.toNat ≤ 65519 → m._data_size.toNat = d - 8) :
    ∃ m', m.doChecksum = some m' ∧ Sends now id seq data_size m' ∧ Ready m' := by
  have hhead : m.raw.buffer.buffer.take 16 = head 0 id seq now := by
    have htake := congrArg (List.take 16) hlaid
    rwa [List.take_take, Nat.min_eq_left (by omega), List.take_left' (length_head 0)] at htake
  have hprepared : RawMessage.Prepared m.raw := by
    refine ⟨⟨by omega, by omega⟩, by omega, ?_⟩
    have hfour : m.raw.buffer.buffer.take 4 = (m.raw.buffer.buffer.take 16).take 4 := by
      rw [List.take_take]
      rfl
    rw [window, hfour, hhead]
    rfl
  obtain ⟨raw, a, b, c, rest, hrun, hbuffer, hmessage, hsent, hverifies⟩ := hprepared.summed
  have hwhole : m.raw.message = 8 :: 0 :: 0 :: 0 :: (littleEndian 2 id.toNat ++ (littleEndian 2 seq.toNat ++
      littleEndian 8 now.toNat) ++ pattern (d - 8)).take (d + 4) := by
    rw [RawMessage.message, hlength, ← Nat.min_eq_left (show d + 8 ≤ 16 + (d - 8) by omega), ← List.take_take, hlaid]
    rfl
  rw [hwhole] at hmessage
  simp only [List.cons.injEq, true_and] at hmessage
  obtain ⟨rfl, rfl, rfl⟩ := hmessage
  have hsize' : raw.buffer.size = m.raw.buffer.size := by rw [hbuffer, ByteBuffer.size_store]
  refine ⟨⟨raw, m._data_size, false⟩, ?_, ⟨⟨c, ?_⟩, hverifies⟩, ?_, ?_, ?_, fun hle => ?_, fun hle => ?_⟩
  · rw [doChecksum, hrun]
    simp [hmoved]
  · rw [hd]
    exact hsent
  · have hfits : 2 + (littleEndian 2 c).length ≤ m.raw.buffer.size := by
      show 4 ≤ _
      omega
    show raw.buffer.outside = false
    rw [hbuffer, ByteBuffer.outside_store hfits, hinside]
  · exact hsize'.trans_lt hfew
  · exact (congrArg (· % 16) hsize').trans hblocks
  · have hn := hds hle
    show 16 + m._data_size.toNat ≤ raw.buffer.size
    omega
  · have hn := hds hle
    show (raw.buffer.buffer.drop 16).take m._data_size.toNat = pattern m._data_size.toNat
    rw [hbuffer, hn]
    show ((overwrite m.raw.buffer.buffer 2 (littleEndian 2 c)).drop 16).take (d - 8) = _
    rw [drop_checksum hhead, ← Nat.add_sub_cancel_left 16 (d - 8), ← List.drop_take, hlaid,
      List.drop_left' (length_head 0), Nat.add_sub_cancel_left]

/-- An update of a message that was sent makes an echo request of it, if the buffer does not end where the message
does. -/
theorem update_sends (h : Ready m) (hdata : data_size.toNat ≤ 65527)
    (hroom : m.raw.buffer.size ≠ data_size.toNat + 8) :
    ∃ m', update fresh now id seq data_size m = .ok (some m') ∧ Sends now id seq data_size m' ∧ Ready m' := by
  have hmsg : (data_size + 8).toNat = data_size.toNat + 8 := by
    rw [UInt16.toNat_add]
    exact Nat.mod_eq_of_lt (by show _ + 8 < 65536; omega)
  generalize hd : data_size.toNat = d at *
  obtain ⟨b, hgrown, hinside, hsize, hspace, hfew, hblocks, hkept⟩ := @Ready.grown fresh m h (d + 8) (by omega)
    (by omega) hroom
  let m₁ : OutboundMessage := ⟨⟨{ b with buffer := head 0 id seq now ++ b.buffer.drop 16, length := d + 8 }, m.raw.sum⟩,
    m._data_size, false⟩
  have hcells : (head 0 id seq now ++ b.buffer.drop 16).length = b.size := by
    rw [List.length_append, length_head, List.length_drop, ← ByteBuffer.size]
    omega
  have hupdate : update fresh now id seq data_size m =
      (fillData fresh data_size m₁).map OutboundMessage.doChecksum := by
    have hstored := @stored_head b now id seq (data_size + 8) hsize
    rw [hmsg] at hstored
    unfold update updateHeader
    dsimp only
    rw [hmsg, hgrown, hstored]
    cases fillData fresh data_size m₁ <;> rfl
  obtain ⟨m₂, hfill, hmoved, hout₂, hsize₂, hlength₂, hlaid, hds⟩ := @fillData_spec fresh m₁ data_size d hd rfl
    (hsize.trans_eq hcells.symm) (hspace.trans_eq hcells.symm) (hcells.trans_lt hfew) rfl (fun hle => by
      show ((head 0 id seq now ++ b.buffer.drop 16).drop 16).take m._data_size.toNat = pattern m._data_size.toNat
      rw [List.drop_left' (length_head 0), hkept _ (h.room hle), h.filled hle]) hdata
  replace hsize₂ : m₂.raw.buffer.size = b.size := hsize₂.trans hcells
  have hfront : m₁.raw.buffer.buffer.take 16 = head 0 id seq now := List.take_left' (length_head 0)
  rw [hfront] at hlaid
  obtain ⟨m', hrun, hsends, hready⟩ := doChecksum_sends hd hdata hmoved (hout₂.trans hinside) (by omega) (by omega)
    (by omega) (by omega) hlength₂ hlaid hds
  exact ⟨m', by rw [hupdate, hfill, ← hrun]; rfl, hsends, hready⟩

theorem new_ready {msg_size : UInt16} (h : 0 < msg_size.toNat) (memory : Nat → UInt8) (icmp_type code : UInt8) :
    Ready (new fresh memory icmp_type id seq msg_size code) := by
  have hlt := msg_size.toNat_lt
  obtain ⟨hsize, -, -, hout, -⟩ := @ByteBuffer.resize_spec ⟨[], 0, 0, false⟩ msg_size.toNat memory h (by omega)
  change (ByteBuffer.new msg_size.toNat memory).size = _ at hsize
  change (ByteBuffer.new msg_size.toNat memory).outside = false at hout
  unfold new updateHeader
  generalize ByteBuffer.new msg_size.toNat memory = b at *
  dsimp only
  rw [if_neg (by omega)]
  have hid : (littleEndian 2 id.toNat).length = 2 := rfl
  have hseq : (littleEndian 2 seq.toNat).length = 2 := rfl
  refine ⟨?_, ?_, ?_, fun _ => ?_, fun _ => ?_⟩
  · show (ByteBuffer.store _ _ _).outside = false
    rw [ByteBuffer.outside_store, ByteBuffer.outside_store, ByteBuffer.outside_store, ByteBuffer.outside_store, hout]
    all_goals
      simp only [ByteBuffer.size_store, List.length_singleton, hid, hseq]
      omega
  · show (ByteBuffer.store _ _ _).size < _
    simp only [ByteBuffer.size_store]
    omega
  · show (ByteBuffer.store _ _ _).size % _ = _
    simp only [ByteBuffer.size_store]
    omega
  · show 16 ≤ (ByteBuffer.store _ _ _).size
    simp only [ByteBuffer.size_store]
    omega
  · show List.take 0 _ = pattern 0
    rfl

variable (fresh)

/-- The messages that are made by the constructor and by updates that keep their buffer where it is. -/
inductive Reused : OutboundMessage → Prop where
  | new {msg_size : UInt16} (h : 0 < msg_size.toNat) (memory : Nat → UInt8) (icmp_type code : UInt8)
    (id seq : UInt16) : Reused (new fresh memory icmp_type id seq msg_size code)
  | update {m m' : OutboundMessage} {now : BitVec 64} {id seq data_size : UInt16} (h : Reused m)
    (hdata : data_size.toNat ≤ 65527) (hroom : m.raw.buffer.size ≠ data_size.toNat + 8)
    (hrun : update fresh now id seq data_size m = .ok (some m')) : Reused m'

variable {fresh}

theorem Reused.ready (h : Reused fresh m) : Ready m := by
  induction h with
  | new h memory icmp_type code id seq => exact new_ready h memory icmp_type code
  | update h hdata hroom hrun ih =>
    obtain ⟨m', hrun', -, hready⟩ := update_sends ih hdata hroom
    rw [hrun] at hrun'
    cases hrun'
    exact hready

/-- The message of an `IcmpSocket`. -/
def echo_request : OutboundMessage := new (fun _ _ => 0) (fun _ => 0) 8 0 0 32 0

/-- However often a message was updated, as long as its buffer stays where it is, its next update makes an echo request
of it that verifies. -/
theorem reused_sends (h : Reused fresh m) (hdata : data_size.toNat ≤ 65527)
    (hroom : m.raw.buffer.size ≠ data_size.toNat + 8) :
    ∃ m', update fresh now id seq data_size m = .ok (some m') ∧ Sends now id seq data_size m' := by
  obtain ⟨m', hrun, hsends, -⟩ := update_sends h.ready hdata hroom
  exact ⟨m', hrun, hsends⟩

theorem reused_sends_ping : ∃ m', update (fun _ _ => 0) 1 7 1 56 echo_request = .ok (some m') ∧ Sends 1 7 1 56 m' := by
  have hsize : echo_request.raw.buffer.size = 48 := rfl
  exact reused_sends (.new (by decide) _ 8 0 0 0) (by decide) (by rw [hsize]; decide)

set_option maxRecDepth 4000 in
/-- With as many bytes of data as make the message end with its buffer, the buffer is moved and its checksum lost. -/
example : (update (fun _ _ => 0) 1 7 1 40 echo_request).toOption.map (Option.map OutboundMessage.moved) =
    some (some true) :=
  rfl

end OutboundMessage

end Srl
