import Srl.TcpFailed

namespace Srl

open Cells ByteBuffer

namespace ByteBuffer

theorem read_ok {b b' : ByteBuffer} {n : Nat} {raw : Bytes} (hs : b.Sound)
    (h : b.read n = (.ok raw, b')) : b.pos + n < b.length ∧ raw = window b.buffer b.pos (b.pos + n) ∧
      b' = { b with pos := b.pos + n } := by
  simp only [ByteBuffer.read] at h
  split at h
  next => simp at h
  next hpast =>
    split at h
    next => simp at h
    next hl =>
      obtain ⟨rfl, rfl⟩ : _ ∧ _ := by simpa [Prod.ext_iff] using h
      have := hs.size_le
      exact ⟨by omega, rfl, rfl⟩

/-- A `read(String&)` that knows the size returns that many bytes from the position on. -/
theorem readChars_ok {b b' : ByteBuffer} {k n m : Nat} {out : Bytes} (hs : b.Sound)
    (h : b.readChars k n = (.ok (m, out), b')) : out.length = n ∧ (0 < n → b.pos + n < b.length) ∧
      out = window b.buffer b.pos (b.pos + n) ∧ b' = { b with pos := b.pos + n } := by
  simp only [ByteBuffer.readChars] at h
  split at h
  next h0 =>
    split at h
    next => simp at h
    next raw c hr =>
      obtain ⟨hlt, hraw, hc⟩ := read_ok hs hr
      obtain ⟨⟨-, rfl⟩, rfl⟩ : (_ ∧ _) ∧ _ := by simpa [Prod.ext_iff] using h
      have hl := hs.length
      refine ⟨?_, fun _ => hlt, hraw, hc⟩
      rw [hraw, length_window, ← size]
      omega
  next h0 =>
    obtain ⟨⟨-, rfl⟩, rfl⟩ : (_ ∧ _) ∧ _ := by simpa [Prod.ext_iff] using h
    obtain rfl : n = 0 := by omega
    exact ⟨rfl, fun h => absurd h h0, (window_self ..).symm, rfl⟩

/-- A `read(String&)` of size 0 reads its size first, and so passes more than that. -/
theorem readString_zero {b b' : ByteBuffer} {m : Nat} {out : Bytes} (hs : b.Sound)
    (h : b.readString 0 = (.ok (m, out), b')) : b'.pos = b.pos + 4 + out.length ∧
      b'.pos < b.length + 1 ∧ b.pos + 4 < b.length ∧ b'.length = b.length ∧ b'.buffer = b.buffer := by
  simp only [ByteBuffer.readString, ↓reduceIte] at h
  split at h
  next => simp at h
  next raw c hr =>
    have hc := hs.read 4
    rw [hr] at hc
    obtain ⟨hlt, -, hc'⟩ := read_ok hs hr
    obtain ⟨hlen, hin, -, rfl⟩ := readChars_ok hc h
    subst hc'
    have hin : 0 < uint32 raw → b.pos + 4 + uint32 raw < b.length := hin
    refine ⟨by rw [hlen], ?_, hlt, rfl, rfl⟩
    show b.pos + 4 + uint32 raw < b.length + 1
    obtain h0 | h0 := Nat.eq_zero_or_pos (uint32 raw)
    · omega
    · have := hin h0
      omega

end ByteBuffer

namespace TcpSocket

/-- `out` is the next `len` bytes of the stream, and the stream goes on behind them; the stream is what
was unread before, and what arrived since. -/
def ReadsNext (s : TcpSocket) (len : UInt32) (out : Bytes) (s' : TcpSocket) : Prop :=
  out.length = len.toNat ∧
    ∃ arrived, s'.received = s.received ++ arrived ∧ s.unread ++ arrived = out ++ s'.unread

theorem replied_returned {s s' : TcpSocket} {r : Except Thrown (Nat × Bytes) × ByteBuffer} {n : Nat}
    {out : Bytes} (h : s.replied r = (.returned n out, s')) :
    ∃ b, r = (.ok (n, out), b) ∧ s' = { s with buffer := b } := by
  obtain ⟨e | ⟨m, buf⟩, b⟩ := r
  · simp [replied] at h
  · obtain ⟨⟨rfl, rfl⟩, rfl⟩ : (_ ∧ _) ∧ _ := by simpa [replied, Prod.ext_iff] using h
    exact ⟨b, rfl, rfl⟩

theorem readAll_returned {len : UInt32} {s s' : TcpSocket} {ts : List Turn} {n : Nat} {out : Bytes}
    (h : s.readAll len ts = (.returned n out, s')) : ∃ m b, Waited [] s m ∧
      m.buffer.readString (len - 1).toNat = (.ok (n, out), b) ∧ s' = { m with buffer := b } := by
  have hr : AllRead len s (s.readAll len ts) := readAll_ended .refl ts
  rw [h] at hr
  generalize hx : (Reply.returned n out, s') = x at hr
  cases hr with
  | @read m hm _ =>
    obtain ⟨b, hb, hs'⟩ := replied_returned hx.symm
    exact ⟨m, b, hm, hb, hs'⟩
  | failed _ => simp at hx
  | thrown _ _ => simp at hx
  | waiting _ => simp at hx

theorem readAll_of_remaining {len : UInt32} {s : TcpSocket} (h : len.toNat ≤ s.buffer.remaining)
    (ts : List Turn) : s.readAll len ts = s.replied (s.buffer.readString (len - 1).toNat) := by
  cases ts <;> simp [readAll, Nat.not_lt.mpr h]

/-- A length of at least 2 is one more than what comes out. -/
theorem length_readAll {len : UInt32} {s s' : TcpSocket} {ts : List Turn} {n : Nat} {out : Bytes}
    (hs : s.Sound) (hlen : 2 ≤ len.toNat) (h : s.readAll len ts = (.returned n out, s')) :
    out.length = len.toNat - 1 := by
  obtain ⟨m, b, hm, hb, -⟩ := readAll_returned h
  have hpred : (len - 1).toNat = len.toNat - 1 :=
    UInt32.toNat_sub_of_le len 1 (UInt32.le_iff_toNat_le.mpr (by show 1 ≤ len.toNat; omega))
  rw [hpred, ByteBuffer.readString, if_neg (by omega)] at hb
  exact (readChars_ok (hm.preserves Sound.refill Sound.search hs).buffer hb).1

/-- A length of 1 takes the size of what comes out from the stream. -/
theorem not_readsNext_one {s s' : TcpSocket} {ts : List Turn} {n : Nat} {out : Bytes} (hs : s.Sound)
    (h : s.readAll 1 ts = (.returned n out, s')) : ¬ s.ReadsNext 1 out s' := by
  have hzero : ((1 : UInt32) - 1).toNat = 0 := rfl
  have hle := hs.buffer.size_le
  have hpos := hs.buffer.pos
  rintro ⟨hout, arrived, hrec, hstream⟩
  have hout : out.length = 1 := hout
  obtain hord | hord := Nat.lt_or_ge s.buffer.length s.buffer.pos |>.symm
  · obtain ⟨m, b, hm, hb, rfl⟩ := readAll_returned h
    rw [hzero] at hb
    have hadv := hm.advanced (by simp) ⟨hs, hord⟩
    obtain ⟨data, hrec', hu⟩ := hadv.arrived
    obtain rfl : data = arrived := List.append_cancel_left (hrec'.symm.trans hrec)
    have hms := hadv.ordered.sound.buffer
    obtain ⟨hp, -, hlt, hl, hbuf⟩ := readString_zero hms hb
    have hlen := congrArg List.length hstream
    rw [← hu, List.length_append, unread, length_unread hms.length] at hlen
    have hb' : ({ m with buffer := b } : TcpSocket).unread.length = b.length - b.pos := by
      apply length_unread
      rw [ByteBuffer.size, hbuf, hl]
      exact hms.length
    omega
  · -- the position is past the length, and nothing is read
    have hrem : (1 : UInt32).toNat ≤ s.buffer.remaining := by
      show 1 ≤ (s.buffer.length + 2 ^ 32 - s.buffer.pos) % 2 ^ 32
      omega
    rw [readAll_of_remaining hrem] at h
    obtain ⟨b, hb, -⟩ := replied_returned h
    rw [hzero] at hb
    obtain ⟨-, -, hlt, -⟩ := readString_zero hs.buffer hb
    omega

/-- After any calls, and however the bytes arrive, a `readAll` that returns does not read the next
`len` bytes. -/
theorem not_readsNext {allowed : Call → Reply → Prop} {done : List (Call × Reply)}
    {s s' : TcpSocket} {len : UInt32} {ts : List Turn} {n : Nat} {out : Bytes}
    (h : Run allowed done s) (hlen : 1 ≤ len.toNat) (hr : s.readAll len ts = (.returned n out, s')) :
    ¬ s.ReadsNext len out s' := by
  have hs := run_sound h
  obtain hone | htwo := Nat.eq_or_lt_of_le hlen
  · obtain rfl : len = 1 := UInt32.toNat_inj.mp hone.symm
    exact not_readsNext_one hs hr
  · intro hn
    have := length_readAll hs htwo hr
    have := hn.1
    omega

theorem readAll_partialLine : partialLine.readAll 2 [] =
    (.returned 1 [97], (partialLine.readAll 2 []).2) := by
  have h : (partialLine.readAll 2 []).1 = .returned 1 [97] := by decide +kernel
  rw [← h]

theorem not_readsNext_partialLine :
    ¬ partialLine.ReadsNext 2 [97] (partialLine.readAll 2 []).2 :=
  not_readsNext run_partialLine (by decide) readAll_partialLine

/-- Of the two bytes `ab` that are buffered, `readAll(out, 2)` returns the first. -/
theorem not_readsNext_two : ¬ ∀ done s len ts n out s', Run (fun _ _ => True) done s →
    1 ≤ len.toNat → s.readAll len ts = (.returned n out, s') → s.ReadsNext len out s' := by
  intro h
  have hn := h _ _ 2 [] _ _ _ run_partialLine (by decide) readAll_partialLine
  have hlen : [97].length = 2 := hn.1
  simp at hlen

end TcpSocket

end Srl
