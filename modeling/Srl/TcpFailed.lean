import Srl.TcpStream

namespace Srl

open Cells ByteBuffer

namespace TcpSocket

/-- The unread bytes of `s` are those of `s'`, in the same order and number. -/
def KeepsUnread (s s' : TcpSocket) : Prop :=
  s'.unread = s.unread ∧ s'.buffer.remaining = s.buffer.remaining

theorem unread_eq_nil_iff {s : TcpSocket} (h : s.Sound) : s.unread = [] ↔ s.buffer.atEnd = true := by
  have hl := length_unread h.buffer.length
  rw [← List.length_eq_zero_iff, unread, hl, atEnd, decide_eq_true_eq]
  omega

/-- A refill that throws leaves the buffer in write mode, where nothing is unread. -/
theorem Refilled.thrown_spec {s s' : TcpSocket} {e : Thrown} (h : s.Refilled (.error e, s'))
    (hs : s.Sound) : s'.unread = [] ∧
      (s.buffer.pos ≤ s.buffer.length → s'.buffer.remaining = 0) ∧
      (s.buffer.length < s.buffer.pos → s'.buffer.remaining = s.buffer.remaining) := by
  have hs' := h.sound hs
  cases h with
  | @thrown b _ hw =>
    have hle : b.size ≤ 512016 := hs'.buffer.size_le
    have hlen : b.length ≤ b.size := hs'.buffer.length
    refine ⟨window_eq_nil hw.length, fun hp => ?_, fun hp => ?_⟩
    · obtain ⟨h1, h2, -⟩ := hw.kept hp
      have hend : b.pos = b.length := h2.trans h1.symm
      show b.remaining = 0
      rw [remaining_eq hend.le (by omega), hend, Nat.sub_self]
    · obtain ⟨h1, h2⟩ := hw.past hp
      simp only [remaining, h1, h2]

/-- After any calls, a `_bufferedRecv` that throws keeps the unread bytes just if there were none. -/
theorem keepsUnread_iff {allowed : Call → Reply → Prop} {done : List (Call × Reply)}
    {s s' : TcpSocket} {t : Turn} {e : Thrown} (h : Run allowed done s)
    (hr : s.bufferedRecv t = (.error e, s')) : s.KeepsUnread s' ↔ s.buffer.atEnd = true := by
  have hs := run_sound h
  have hspec := bufferedRecv_spec hs.buffer hs.max_size t
  rw [hr] at hspec
  obtain ⟨hu, hin, hpast⟩ := hspec.thrown_spec hs
  rw [KeepsUnread, hu, eq_comm, unread_eq_nil_iff hs]
  constructor
  · exact And.left
  · intro hend
    refine ⟨hend, ?_⟩
    have hle := hs.buffer.size_le
    have hpos := hs.buffer.pos
    simp only [atEnd, decide_eq_true_eq] at hend
    obtain hlt | heq := Nat.lt_or_eq_of_le hend
    · exact hpast hlt
    · rw [hin heq.ge, remaining_eq heq.ge (by omega), heq, Nat.sub_self]

end TcpSocket

/-- A peer that closed the connection. -/
def gone : Turn where
  wait := .ready
  connected := true
  poll := .ready
  recv _ := .closed
  fresh _ := 0
  timer := 0

namespace TcpSocket

/-- A new socket that received `ab`, the beginning of a line. -/
def partialLine : TcpSocket := ((new fun _ => 0).call .bufferedRecv [sends [97, 98] (by decide)]).2

theorem run_partialLine : Run (fun _ _ => True)
    [(.bufferedRecv, ((new fun _ => 0).call .bufferedRecv [sends [97, 98] (by decide)]).1)] partialLine :=
  .call (.new _) trivial

theorem partialLine_thrown : partialLine.bufferedRecv gone =
    (.error (.socketDisconnected (bytes "socket disconnected during receive")),
      (partialLine.bufferedRecv gone).2) := by
  have h : (partialLine.bufferedRecv gone).1 =
      .error (.socketDisconnected (bytes "socket disconnected during receive")) := by
    decide +kernel
  rw [← h]

theorem keepsUnread_iff_partialLine : partialLine.KeepsUnread (partialLine.bufferedRecv gone).2 ↔
    partialLine.buffer.atEnd = true :=
  keepsUnread_iff run_partialLine partialLine_thrown

/-- The connection is closed while a part of a line is buffered, and that part is lost. -/
theorem not_keepsUnread_partialLine : ¬ ∀ done s s' t e, Run (fun _ _ => True) done s →
    s.bufferedRecv t = (.error e, s') → s.KeepsUnread s' := by
  intro h
  have hk := h _ _ _ gone _ run_partialLine partialLine_thrown
  have hbefore : partialLine.unread = [97, 98] := by decide +kernel
  have hafter : (partialLine.bufferedRecv gone).2.unread = [] := by decide +kernel
  have hlost : ([] : Bytes) = [97, 98] := hafter.symm.trans (hk.1.trans hbefore)
  simp at hlost

end TcpSocket

end Srl
