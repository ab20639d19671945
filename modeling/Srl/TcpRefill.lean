import Srl.ByteBufferFind
import Srl.TcpSocket

namespace Srl

open Cells

namespace ByteBuffer

/-- What holds of the buffer of a socket after any calls. -/
structure Sound (b : ByteBuffer) : Prop where
  pos : b.pos ≤ b.size
  length : b.length ≤ b.size
  size_pos : 0 < b.size
  size_le : b.size ≤ 512016

/-- `b` is `a` in write mode, perhaps with more room: its unread bytes are before the position. -/
structure WriteMode (a b : ByteBuffer) : Prop where
  size : a.size ≤ b.size
  size_le : b.size ≤ 512016
  pos : b.pos ≤ b.size
  kept : a.pos ≤ a.length → b.length = a.length - a.pos ∧ b.pos = a.length - a.pos ∧
    window b.buffer 0 b.pos = a.unread
  past : a.length < a.pos → b.length = a.length ∧ b.pos = a.pos
  outside : b.outside = (a.outside || decide (a.length - a.pos = a.size))

theorem WriteMode.length {a b : ByteBuffer} (h : WriteMode a b) : b.length ≤ b.pos := by
  obtain hl | hl := Nat.lt_or_ge a.length a.pos
  · have := h.past hl
    omega
  · have := h.kept hl
    omega

theorem Sound.toggle {b : ByteBuffer} (h : b.Sound) : WriteMode b (b.toggle true) := by
  have hsize := h.size_pos
  have hpos := h.pos
  simp only [ByteBuffer.toggle, ↓reduceIte]
  obtain hl | hl | hl := Nat.lt_trichotomy b.pos b.length
  · obtain ⟨hs, hlen, hp, hw, ho⟩ := moveStart_spec hl h.length
    rw [if_neg hl.ne]
    have hle := h.length
    exact ⟨hs.ge, hs.le.trans h.size_le, by omega, fun _ => ⟨hlen, hp, by rwa [hp]⟩,
      fun _ => by omega, ho⟩
  · rw [if_pos hl]
    refine ⟨le_refl _, h.size_le, Nat.zero_le _, fun _ => ?_, fun _ => by omega, ?_⟩
    · have hu : b.unread = [] := by rw [unread, hl, window_self]
      simp [hu, hl]
    · have : ¬ b.length - b.pos = b.size := by omega
      simp [this]
  · have hm : b.moveStart = b := if_neg (by omega)
    rw [if_neg hl.ne', hm]
    have : ¬ b.length - b.pos = b.size := by omega
    exact ⟨le_refl _, h.size_le, h.pos, fun _ => by omega, fun _ => ⟨rfl, rfl⟩, by simp [this]⟩

end ByteBuffer

open ByteBuffer

theorem length_recv {t : Turn} {len : Nat} {msec : Int} {data : Bytes}
    (h : recv t len msec = .ok data) : data.length ≤ len := by
  simp only [recv] at h
  split at h
  next => simp at h
  next =>
    split at h
    next => simp at h
    next =>
      obtain rfl : [] = data := by simpa using h
      exact Nat.zero_le len
    next =>
      split at h
      next chunk fits _ =>
        obtain rfl : chunk = data := by simpa using h
        exact fits.2
      next => simp at h
      next => simp at h

namespace TcpSocket

/-- More room changes neither what is unread nor what was recorded. -/
theorem makeRoom_ok {s s' : TcpSocket} {a : ByteBuffer} {fresh : Nat → UInt8}
    (hw : WriteMode a s.buffer) (hm : s.max_size = 512000) (h : s.makeRoom fresh = .ok s') :
    WriteMode a s'.buffer ∧ s' = { s with buffer := s'.buffer } := by
  simp only [makeRoom] at h
  split at h
  next => simp at h
  next hfull =>
    split at h
    next hfree =>
      obtain rfl := Except.ok.inj h
      refine ⟨?_, rfl⟩
      simp only
      generalize hn : (if s.max_size < s.buffer.size + 1024 then s.max_size
        else s.buffer.size + 1024) = n
      rw [hm] at hn hfull
      have hsize := hw.size
      have hle := hw.size_le
      have hpos := hw.pos
      have hn0 : 0 < n ∧ n ≤ 512000 := by split at hn <;> omega
      have hr : s.buffer.size ≤ (n + 16) / 16 * 16 ∧ s.buffer.pos < (n + 16) / 16 * 16 ∧
          (n + 16) / 16 * 16 ≤ 512016 := by split at hn <;> omega
      obtain ⟨hs, hl, hp, ho, hwin⟩ := resize_spec (b := s.buffer) fresh hn0.1 (by omega)
      refine ⟨by omega, by omega, by omega, fun hk => ?_, fun hk => ?_, by rw [ho, hw.outside]⟩
      · obtain ⟨h1, h2, h3⟩ := hw.kept hk
        exact ⟨by omega, by omega, by rw [hp, hwin 0 _ hpos hr.2.1, h3]⟩
      · have := hw.past hk
        omega
    next =>
      obtain rfl := Except.ok.inj h
      exact ⟨hw, rfl⟩

/-- The ends of a `_bufferedRecv`: it throws in write mode, or `data` follows the unread bytes. -/
inductive Refilled (s : TcpSocket) : Except Thrown Nat × TcpSocket → Prop
  | thrown {b e} : WriteMode s.buffer b →
      Refilled s (.error e, { s with buffer := b, begun := s.begun ++ [.refill s.buffer] })
  | stored {b data} : WriteMode s.buffer b → b.pos + data.length ≤ b.size →
      Refilled s (.ok data.length, { s with
        buffer := { b.store b.pos data with
          length := if 0 < data.length then data.length + b.pos else b.length
          pos := 0 }
        received := s.received ++ data
        begun := s.begun ++ [.refill s.buffer] })

theorem bufferedRecv_spec {s : TcpSocket} (hs : s.buffer.Sound) (hm : s.max_size = 512000)
    (t : Turn) : s.Refilled (s.bufferedRecv t) := by
  simp only [bufferedRecv]
  have hw : WriteMode s.buffer (s.buffer.toggle true) := hs.toggle
  split
  next e _ => exact .thrown hw
  next s' hroom =>
    obtain ⟨hw, hs'⟩ := makeRoom_ok (s := { s with
      buffer := s.buffer.toggle true, begun := s.begun ++ [Begun.refill s.buffer] }) hw hm hroom
    generalize s'.buffer = b at hw hs'
    subst hs'
    split
    next e _ => exact .thrown hw
    next data hd =>
      have hlen : data.length ≤ b.size - b.pos := length_recv hd
      have hpos := hw.pos
      have hset : ((b.store b.pos data).setLength (data.length + b.pos)).setPosition
          (data.length + b.pos) = .ok { (b.store b.pos data) with
            length := data.length + b.pos, pos := data.length + b.pos } := by
        apply if_neg
        show ¬ (b.store b.pos data).size < _
        rw [size_store]
        omega
      have hend := @Refilled.stored s b data hw (by omega)
      split
      next h0 =>
        rw [if_pos h0] at hend
        simp only [stored, setLength, pos_store] at hset ⊢
        rw [hset]
        exact hend
      next h0 =>
        rw [if_neg h0] at hend
        exact hend

end TcpSocket

end Srl
