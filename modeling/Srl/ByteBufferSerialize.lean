import Srl.BinaryRoundTrip

namespace Srl

open Cells Binary

namespace ByteBuffer

variable {b c c' r r' w : ByteBuffer} {fresh : ByteBuffer → Nat → UInt8} {memory : Nat → UInt8} {n : Nat} {e : Thrown}

/-- `serialize` into a `ByteBuffer`. -/
def serialize (fresh : ByteBuffer → Nat → UInt8) (b writer : ByteBuffer) : Except Thrown Nat × ByteBuffer :=
  let (counter, writer) := writer.writeData fresh (littleEndian 4 b.length)
  if b.size < b.length then (.error .fault, writer)
  else
    let (n, writer) := writer.writeData fresh (window b.buffer 0 b.length)
    (.ok (counter + n), writer)

/-- `deserialize` from a `ByteBuffer`: what it returns, the buffer and the reader. -/
def deserialize (memory : Nat → UInt8) (b reader : ByteBuffer) : Except Thrown Nat × ByteBuffer × ByteBuffer :=
  match reader.read 4 with
  | (.error e, reader) => (.error e, b, reader)
  | (.ok raw, reader) =>
    let b := (b.setLength (uint32 raw)).resize (uint32 raw) memory
    match reader.read b.length with
    | (.error e, reader) => (.error e, b, reader)
    | (.ok raw, reader) => (.ok (4 + raw.length), b.store 0 raw, reader)

/-- `operator==`. -/
def equal (b other : ByteBuffer) : Bool :=
  b.length = other.length && window b.buffer 0 b.length = window other.buffer 0 b.length

/-- `b` comes back from what `serialize` wrote, after a rewind to where it began. -/
def ComesBack (fresh : ByteBuffer → Nat → UInt8) (memory : Nat → UInt8) (b writer c : ByteBuffer) : Prop :=
  ∃ n w r m c' r', b.serialize fresh writer = (.ok n, w) ∧ w.setPosition writer.pos = .ok r ∧
    c.deserialize memory r = (.ok m, c', r') ∧ c'.equal b = true

/-- A `deserialize` that throws leaves the buffer as it was. -/
def Atomic (memory : Nat → UInt8) (c reader : ByteBuffer) : Prop :=
  ∀ e c' r', c.deserialize memory reader = (.error e, c', r') → c' = c

/-- The `read` of `n` bytes throws. -/
def Short (r : ByteBuffer) (n : Nat) : Prop := r.length ≤ (n + r.pos) % 2 ^ 32 ∨ r.size < r.pos + n

/-- The buffer has the length, and the allocation that `resize` gives it. -/
def Ready (c : ByteBuffer) (n : Nat) : Prop :=
  c.length = n ∧ if 0 < n then c.size = roundup (n + 1) 16 ∧ (0 < c.size → c.buffer[c.size - 1]? = some 0)
    else c.buffer = []

theorem short_iff : r.Short n ↔ ∃ e r', r.read n = (.error e, r') := by
  unfold Short read
  split
  next h => exact iff_of_true (.inl h) ⟨_, _, rfl⟩
  next h =>
    split
    next h' => exact iff_of_true (.inr h') ⟨_, _, rfl⟩
    next h' => exact iff_of_false (by omega) (by simp)

theorem overwrite_last {cells : Bytes} {a : UInt8} (h : 0 < cells.length) :
    overwrite cells (cells.length - 1) [a] = cells ↔ cells[cells.length - 1]? = some a := by
  rcases List.eq_nil_or_concat cells with rfl | ⟨xs, x, rfl⟩
  · simp at h
  · have hwrite := @overwrite_middle _ xs [x] [] [a] xs.length rfl rfl
    simp only [List.append_nil] at hwrite
    simp [hwrite, eq_comm]

theorem resize_eq_self_iff : c.resize n memory = c ↔
    if 0 < n then c.size = roundup (n + 1) 16 ∧ (0 < c.size → c.buffer[c.size - 1]? = some 0) else c.buffer = [] := by
  simp only [resize]
  split
  next hn =>
    split
    next hs =>
      rw [hs]
      split
      next hpos =>
        have hlast := @overwrite_last c.buffer 0 hpos
        have hout : decide (c.size < c.size - 1 + 1) = false := decide_eq_false (by omega)
        simp only [true_and, hpos, forall_const]
        rw [show c.buffer.length = c.size from rfl] at hlast
        rw [← hlast, store, List.length_singleton, hout, Bool.or_false]
        exact ⟨congrArg buffer, fun h => by rw [h]⟩
      next hpos => exact iff_of_true rfl ⟨rfl, fun h => absurd h hpos⟩
    next hs =>
      refine iff_of_false (fun h => hs ?_) fun h => hs h.1.symm
      have hsize := congrArg size h
      rw [size_store] at hsize
      exact (length_realloc ..).symm.trans hsize
  next hn => exact ⟨fun h => (congrArg buffer h).symm, fun h => by rw [← h]⟩

theorem setLength_resize_eq_self_iff : (c.setLength n).resize n memory = c ↔ c.Ready n := by
  constructor
  · intro h
    have hlen : c.length = n := by
      rw [← h]
      exact (pos_resize n memory).2
    have hset : c.setLength n = c := by rw [setLength, ← hlen]
    exact ⟨hlen, resize_eq_self_iff.mp (by rwa [hset] at h)⟩
  · rintro ⟨rfl, h⟩
    exact resize_eq_self_iff.mpr h

theorem read_not_short (h : ¬r.Short n) :
    r.read n = (.ok (window r.buffer r.pos (r.pos + n)), { r with pos := r.pos + n }) := by
  unfold Short at h
  unfold read
  rw [if_neg (by omega), if_neg (by omega)]

/-- What `deserialize` gives back has the length that was written, and its last byte is the last one of the reader. -/
theorem not_comesBack (hw : w.size < 2 ^ 32) : ¬b.ComesBack fresh memory w c := by
  rintro ⟨n, w₂, r, m, c', r', hser, hpos, hdes, heq⟩
  let w₁ := (w.writeData fresh (littleEndian 4 b.length)).2
  have hw₂ : w₂ = (w₁.writeData fresh (window b.buffer 0 b.length)).2 := by
    unfold serialize at hser
    simp only at hser
    split at hser
    next => cases hser
    next =>
      cases hser
      rfl
  have hsize : w₂.size < 2 ^ 32 := by
    have hbound : 2 ^ 32 - 16 < 2 ^ 32 := by decide
    rw [hw₂]
    exact (writeData_size _).trans_lt (max_lt ((writeData_size _).trans_lt (max_lt hw hbound)) hbound)
  have hlen : w₂.length ≤ w.pos + 4 + b.length := by
    have hwindow : (window b.buffer 0 b.length).length ≤ b.length := by
      rw [length_window]
      omega
    rw [hw₂, (writeData_pos _).2, (writeData_pos _).1, length_littleEndian]
    have := Nat.mod_le ((window b.buffer 0 b.length).length % 2 ^ 32 + (4 % 2 ^ 32 + w.pos) % 2 ^ 32) (2 ^ 32)
    omega
  obtain ⟨rfl, -⟩ := setPosition_ok.mp hpos
  unfold deserialize at hdes
  split at hdes
  next => cases hdes
  next raw r₁ hread =>
    obtain ⟨rfl, -, -, -⟩ := read_stays hread hsize
    simp only at hdes
    split at hdes
    next => cases hdes
    next raw' r₂ hread' =>
      obtain ⟨-, -, hend, -⟩ := read_stays hread' hsize
      cases hdes
      rw [equal, Bool.and_eq_true, decide_eq_true_iff, length_store] at heq
      simp only at hend
      omega

/-- A throw leaves the buffer as it was where the length is truncated, or the buffer has the length and the
allocation of the payload already. -/
theorem atomic_iff : c.Atomic memory r ↔ r.Short 4 ∨ c.Ready (uint32 (window r.buffer r.pos (r.pos + 4))) ∨
    ¬{ r with pos := r.pos + 4 }.Short (uint32 (window r.buffer r.pos (r.pos + 4))) := by
  by_cases hshort : r.Short 4
  · obtain ⟨e, r', hread⟩ := short_iff.mp hshort
    refine iff_of_true (fun e c' r' h => ?_) (.inl hshort)
    rw [deserialize, hread] at h
    cases h
    rfl
  · have hread := read_not_short hshort
    rw [or_iff_right hshort]
    obtain ⟨len, hlen⟩ : ∃ len, uint32 (window r.buffer r.pos (r.pos + 4)) = len := ⟨_, rfl⟩
    have hpayload : ((c.setLength len).resize len memory).length = len := (pos_resize len memory).2
    unfold Atomic deserialize
    simp only [hread, hlen, hpayload]
    by_cases hend : { r with pos := r.pos + 4 }.Short len
    · rw [or_iff_left (not_not_intro hend), ← @setLength_resize_eq_self_iff c memory len]
      obtain ⟨e, r', hthrow⟩ := short_iff.mp hend
      simp only [hthrow]
      constructor
      · intro h
        exact h e _ r' rfl
      · rintro h e c' r' hthrown
        cases hthrown
        exact h
    · refine iff_of_true (fun e c' r' h => ?_) (.inr hend)
      rw [read_not_short hend] at h
      cases h

/-- A buffer never comes back from its own serialisation, and a throw leaves the buffer that was to hold it as it was
only where the length is truncated, or that buffer has the length and the allocation of the payload already. -/
theorem deserialize_throws (b w c : ByteBuffer) (fresh : ByteBuffer → Nat → UInt8) (memory : Nat → UInt8)
    (hw : w.size < 2 ^ 32) : ¬b.ComesBack fresh memory w c ∧
    ∀ r : ByteBuffer, c.Atomic memory r ↔ r.Short 4 ∨ c.Ready (uint32 (window r.buffer r.pos (r.pos + 4))) ∨
      ¬{ r with pos := r.pos + 4 }.Short (uint32 (window r.buffer r.pos (r.pos + 4))) :=
  ⟨not_comesBack hw, fun _ => atomic_iff⟩

theorem deserialize_throws_byte : ¬(ByteBuffer.mk [7, 0] 1 0 false).ComesBack (fun _ _ => 0) (fun _ => 0)
    (new 16 fun _ => 0) (new 16 fun _ => 0) ∧ ∀ r : ByteBuffer, (new 16 fun _ => 0).Atomic (fun _ => 0) r ↔ r.Short 4 ∨
      (new 16 fun _ => 0).Ready (uint32 (window r.buffer r.pos (r.pos + 4))) ∨
        ¬{ r with pos := r.pos + 4 }.Short (uint32 (window r.buffer r.pos (r.pos + 4))) :=
  deserialize_throws (ByteBuffer.mk [7, 0] 1 0 false) (new 16 fun _ => 0) (new 16 fun _ => 0) (fun _ _ => 0)
    (fun _ => 0) (new_lt 16 _)

/-- One byte, with its length in front, in the reader: the read of the byte throws, and the length of the buffer that
was to hold it is 1. -/
theorem not_comesBack_byte : ¬∀ (b w c : ByteBuffer), b.length ≤ b.size → w.size < 2 ^ 32 →
    b.ComesBack (fun _ _ => 0) (fun _ => 0) w c ∧ ∀ r, c.Atomic (fun _ => 0) r := by
  intro h
  obtain ⟨-, hatomic⟩ := h ⟨[7, 0], 1, 0, false⟩ (new 16 fun _ => 0) (new 16 fun _ => 0) (by decide)
    (new_lt 16 _)
  have hkept := hatomic { ((⟨[7, 0], 1, 0, false⟩ : ByteBuffer).serialize (fun _ _ => 0) (new 16 fun _ => 0)).2 with
    pos := 0 } _ _ _ rfl
  revert hkept
  decide

end ByteBuffer

end Srl
