import Srl.Channel
import Srl.TcpCalls

namespace Srl

open Cells ByteBuffer

namespace TcpSocket

/-- The buffer is as the calls leave it that read no more than was received. -/
structure Ordered (s : TcpSocket) : Prop where
  sound : s.Sound
  pos : s.buffer.pos ≤ s.buffer.length

/-- From `s` to `m` some bytes arrived, and they follow those that were unread. -/
structure Advanced (s m : TcpSocket) : Prop where
  ordered : m.Ordered
  arrived : ∃ data, m.received = s.received ++ data ∧ m.unread = s.unread ++ data

theorem Advanced.refl {s : TcpSocket} (h : s.Ordered) : Advanced s s :=
  ⟨h, [], by simp, by simp⟩

theorem Advanced.trans {s m m' : TcpSocket} (h : Advanced s m) (h' : Advanced m m') : Advanced s m' := by
  obtain ⟨x, hr, hu⟩ := h.arrived
  obtain ⟨y, hr', hu'⟩ := h'.arrived
  refine ⟨h'.ordered, x ++ y, ?_, ?_⟩
  · rw [hr', hr, List.append_assoc]
  · rw [hu', hu, List.append_assoc]

theorem Refilled.advanced {s m : TcpSocket} {n : Nat} (h : s.Refilled (.ok n, m)) (hs : s.Ordered) :
    Advanced s m := by
  have hm := h.sound hs.sound
  cases h with
  | @stored b data hw hl =>
    obtain ⟨hlen, hpos, hwin⟩ := hw.kept hs.pos
    have hend : (if 0 < data.length then data.length + b.pos else b.length) = b.pos + data.length := by
      split <;> omega
    refine ⟨⟨hm, Nat.zero_le _⟩, data, rfl, ?_⟩
    show window (overwrite b.buffer b.pos data) 0 _ = s.buffer.unread ++ data
    rw [hend, ← window_append (Nat.zero_le b.pos) (Nat.le_add_right ..), window_overwrite_self hl,
      window_overwrite (le_refl _) hw.pos, hwin]

theorem bufferedRecv_advanced {s m : TcpSocket} {t : Turn} {n : Nat} (hs : s.Ordered)
    (h : s.bufferedRecv t = (.ok n, m)) : Advanced s m := by
  have hr := bufferedRecv_spec hs.sound.buffer hs.sound.max_size t
  rw [h] at hr
  exact hr.advanced hs

/-- A search for a character changes nothing, or hands out the unread bytes up to the first one. -/
theorem search_char {s m : TcpSocket} {c : UInt8} {n : Nat} {buf : Bytes} (hs : s.Ordered)
    (h : s.search (.char c) = (n, buf, m)) :
    m.Ordered ∧ m.received = s.received ∧ s.unread = buf ++ m.unread ∧
      (buf = [] ∨ 0 < n ∧ Channel.IsLine c buf) := by
  have hr := readUntil_spec s.buffer (.char c)
  have hm := hr.sound hs.sound.buffer
  have hlen := hs.sound.buffer.length
  simp only [search, Prod.mk.injEq] at h
  obtain ⟨rfl, rfl, rfl⟩ := h
  generalize s.buffer.readUntil (.char c) = r at hr hm
  cases hr with
  | @hit i hi hlt _ hl hst hbefore =>
    have hw : Delimiter.width (.char c) = 1 := rfl
    rw [hw] at hl ⊢
    refine ⟨⟨⟨hm, hs.sound.max_size⟩, hlt⟩, rfl, (window_append (by omega) (by omega)).symm, .inr ⟨by omega, ?_⟩⟩
    refine ⟨window s.buffer.buffer s.buffer.pos i, ?_, ?_⟩
    · have hc : s.buffer.buffer[i]? = some c := by
        have hv := List.getElem?_eq_getElem (l := s.buffer.buffer) (i := i) hl
        rw [hv, stands_char.mp hst _ hv]
      show window _ _ (i + 1) = _
      rw [← window_append hi (Nat.le_succ i), window_succ hc]
    · intro hc
      obtain ⟨k, hk, hki, hv⟩ := mem_window hc
      exact hbefore k hk hki (stands_char.mpr fun v hv' => by simpa [hv] using hv'.symm)
  | far | missing _ => exact ⟨⟨⟨hm, hs.sound.max_size⟩, hs.pos⟩, rfl, rfl, .inl rfl⟩
  | outside hi hlt ho =>
    have hw : Delimiter.width (.char c) = 1 := rfl
    omega

theorem Waited.advanced {ds : List Delimiter} {s m : TcpSocket} (h : Waited ds s m)
    (hd : ∀ d ∈ ds, ∃ c, d = .char c) (hs : s.Ordered) : Advanced s m := by
  induction h with
  | refl => exact .refl hs
  | refill _ hr ih => exact ih.trans (bufferedRecv_advanced ih.ordered hr)
  | missed _ hmem hr ih =>
    obtain ⟨c, rfl⟩ := hd _ hmem
    obtain ⟨ho, hrec, hu, hbuf⟩ := search_char ih.ordered hr
    obtain rfl : _ = [] := hbuf.resolve_right (by simp)
    exact ih.trans ⟨ho, [], by simpa using hrec, by simpa using hu.symm⟩

theorem new_ordered (fresh : Nat → UInt8) : (new fresh).Ordered := by
  obtain ⟨-, -, hp, -⟩ := new_spec fresh
  exact ⟨new_sound fresh, by omega⟩

end TcpSocket

/-- Refills and reads up to a character, of which each returns. -/
def Call.streamed : Call → Reply → Prop
  | .bufferedRecv, .returned _ _ => True
  | .readUntil (.char _) _ _, .returned _ _ => True
  | _, _ => False

/-- The character up to which a call reads. -/
def Call.delim : Call → Option UInt8
  | .readUntil (.char c) _ _ => some c
  | _ => none

namespace TcpSocket

/-- The stream that a socket stands for, after `done`. -/
def channel (s : TcpSocket) (done : List (Call × Reply)) : Channel (Call × Reply) UInt8 where
  arrived := s.received
  left := s.unread
  handed := done.map fun x => (x, x.2.text)

theorem channel_advanced {s m : TcpSocket} {done : List (Call × Reply)} (h : Advanced s m)
    (hc : Channel.Run (Call.delim ·.1) (s.channel done)) :
    Channel.Run (Call.delim ·.1) (m.channel done) := by
  obtain ⟨data, hr, hu⟩ := h.arrived
  have := hc.arrive data
  simpa [channel, hr, hu] using this

theorem channel_pass {s : TcpSocket} {done : List (Call × Reply)} (x : Call × Reply)
    (hx : x.2.text = []) (hc : Channel.Run (Call.delim ·.1) (s.channel done)) :
    Channel.Run (Call.delim ·.1) (s.channel (done ++ [x])) := by
  have := hc.pass x
  simpa [channel, hx] using this

theorem channel_take {s m : TcpSocket} {done : List (Call × Reply)} {d : UInt8}
    (x : Call × Reply) (hd : x.1.delim = some d) (hr : m.received = s.received)
    (hu : s.unread = x.2.text ++ m.unread) (hl : Channel.IsLine d x.2.text)
    (hc : Channel.Run (Call.delim ·.1) (s.channel done)) :
    Channel.Run (Call.delim ·.1) (m.channel (done ++ [x])) := by
  have := hc.take (l := x) hd hu hl
  simpa [channel, hr] using this

/-- Each call of a streamed run is one of the channel. -/
theorem call_channel {s : TcpSocket} {done : List (Call × Reply)} {c : Call} {ts : List Turn}
    (hs : s.Ordered) (hc : Channel.Run (Call.delim ·.1) (s.channel done))
    (ha : c.streamed (s.call c ts).1) : (s.call c ts).2.Ordered ∧
      Channel.Run (Call.delim ·.1) ((s.call c ts).2.channel (done ++ [(c, (s.call c ts).1)])) := by
  cases c with
  | bufferedRecv =>
    cases ts with
    | nil => exact ha.elim
    | cons t ts =>
      rcases hr : s.bufferedRecv t with ⟨e | n, m⟩
      · simp [call, hr, Call.streamed] at ha
      · have hm := bufferedRecv_advanced hs hr
        simp only [call, hr]
        exact ⟨hm.ordered, channel_pass _ rfl (channel_advanced hm hc)⟩
  | readUntil d msec start =>
    cases d with
    | text str past => exact ha.elim
    | char d =>
      have hd : ∀ x ∈ [Delimiter.char d], ∃ c, x = .char c := by simp
      have hr := readUntil_ended s (.char d) msec start ts
      simp only [call] at ha ⊢
      generalize s.readUntil (.char d) msec start ts = r at ha hr
      cases hr with
      | @searched m m' n k buf hm hsearch =>
        have hm := hm.advanced hd hs
        have hc := channel_advanced hm hc
        obtain ⟨ho, hrec, hu, hbuf | ⟨-, hline⟩⟩ := search_char hm.ordered hsearch
        · refine ⟨ho, ?_⟩
          have hm' : Advanced m m' := ⟨ho, [], by simpa using hrec, by simpa [hbuf] using hu.symm⟩
          exact channel_pass _ hbuf (channel_advanced hm' hc)
        · exact ⟨ho, channel_take (_, .returned k buf) rfl hrec hu hline hc⟩
      | timeout hm =>
        have hm := hm.advanced hd hs
        exact ⟨hm.ordered, channel_pass _ rfl (channel_advanced hm hc)⟩
      | failed _ => exact ha.elim
      | thrown _ _ => exact ha.elim
      | waiting _ => exact ha.elim
  | readAll len => exact ha.elim
  | read len msec => exact ha.elim
  | readString len msec => exact ha.elim

theorem run_channel {done : List (Call × Reply)} {s : TcpSocket} (h : Run Call.streamed done s) :
    s.Ordered ∧ Channel.Run (Call.delim ·.1) (s.channel done) := by
  induction h with
  | new fresh =>
    refine ⟨new_ordered fresh, ?_⟩
    obtain ⟨-, hl, -⟩ := new_spec fresh
    have hu : (new fresh).unread = [] := window_eq_nil (by omega)
    have hr : (new fresh).received = [] := rfl
    have : Channel.Run (fun x : Call × Reply => x.1.delim) ⟨[], [], []⟩ := .start
    simpa [channel, hu, hr] using this
  | call _ ha ih => exact call_channel ih.1 ih.2 ha

/-- What the calls returned, followed by the unread bytes, is what was received, and each line that a
call returned ends at the first delimiter of the stream that was unread then. -/
theorem stream_law {done : List (Call × Reply)} {s : TcpSocket} (h : Run Call.streamed done s) :
    (done.map fun x => x.2.text).flatten ++ s.unread = s.received ∧
    ∀ before after c msec start n line,
      done = before ++ (.readUntil (.char c) msec start, .returned n line) :: after → line ≠ [] →
      (∃ body, line = body ++ [c] ∧ c ∉ body) ∧
        line <+: s.received.drop (before.map fun x => x.2.text).flatten.length := by
  have hc := (run_channel h).2
  have htaken : ∀ l : List (Call × Reply), Channel.taken (l.map fun x => (x, x.2.text)) =
      (l.map fun x => x.2.text).flatten := by
    intro l
    simp [Channel.taken, Function.comp_def]
  refine ⟨by simpa [channel, htaken] using hc.taken_left, ?_⟩
  rintro before after c msec start n line rfl hline
  let x : Call × Reply := (.readUntil (.char c) msec start, .returned n line)
  constructor
  · obtain ⟨d, hd, hbody⟩ := hc.lines (l := x) (x := line) (by simp [channel, x, Reply.text]) hline
    obtain rfl : c = d := by simpa [x, Call.delim] using hd
    exact hbody
  · have := hc.prefix_drop (before.map fun x => (x, x.2.text))
      (after.map fun x => (x, x.2.text)) (l := x) (x := line) (by simp [channel, x, Reply.text])
    rwa [htaken] at this

end TcpSocket

/-- A peer that is ready and sends `data`, or as much of it as there is room for. -/
def sends (data : Bytes) (h : 0 < data.length) : Turn where
  wait := .ready
  connected := true
  poll := .ready
  recv len := if hl : 0 < len then .chunk (data.take len) (by simp; omega) else .closed
  fresh _ := 0
  timer := 0

namespace TcpSocket

/-- A new socket that received `a!b`. -/
def primed : TcpSocket := ((new fun _ => 0).call .bufferedRecv [sends [97, 33, 98] (by decide)]).2

/-- The same socket after a `readUntil` of the `!`. -/
def served : TcpSocket := (primed.call (.readUntil (.char 33) NOW 0) []).2

theorem run_served : Run Call.streamed
    [(.bufferedRecv, .returned 3 []), (.readUntil (.char 33) NOW 0, .returned 2 [97, 33])] served := by
  have h1 : ((new fun _ => 0).call .bufferedRecv [sends [97, 33, 98] (by decide)]).1 = .returned 3 [] := by
    decide +kernel
  have h2 : (primed.call (.readUntil (.char 33) NOW 0) []).1 = .returned 2 [97, 33] := by decide +kernel
  have hr : Run Call.streamed [(.bufferedRecv, .returned 3 [])] primed := by
    rw [← h1]
    exact .call (.new _) (by rw [h1]; trivial)
  have := @Run.call _ _ _ (.readUntil (.char 33) NOW 0) [] hr (by rw [h2]; trivial)
  rwa [h2] at this

theorem stream_law_served : [97, 33] ++ served.unread = served.received := by
  simpa [Reply.text] using (stream_law run_served).1

end TcpSocket

end Srl
