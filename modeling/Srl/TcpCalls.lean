import Srl.TcpRefill

namespace Srl

open Cells ByteBuffer

namespace TcpSocket

/-- Refills that ended well, and searches for one of `ds` that found nothing. -/
inductive Waited (ds : List Delimiter) (s : TcpSocket) : TcpSocket → Prop
  | refl : Waited ds s s
  | refill {m m' t n} : Waited ds s m → m.bufferedRecv t = (.ok n, m') → Waited ds s m'
  | missed {m m' d buf} : Waited ds s m → d ∈ ds → m.search d = (0, buf, m') → Waited ds s m'

/-- The ends of a `readUntil`. -/
inductive Ended (d : Delimiter) (s : TcpSocket) : Reply × TcpSocket → Prop
  | searched {m m' n k buf} : Waited [d] s m → m.search d = (n, buf, m') →
      Ended d s (.returned k buf, m')
  | timeout {m} : Waited [d] s m → Ended d s (.returned 0 [], m)
  | failed {m e} : Waited [d] s m → Ended d s (.thrown e, m)
  | thrown {m m' t e} : Waited [d] s m → m.bufferedRecv t = (.error e, m') → Ended d s (.thrown e, m')
  | waiting {m} : Waited [d] s m → Ended d s (.waiting, m)

/-- One round of a waiting `readUntil`: a refill and a search, and the loop if that finds nothing. -/
theorem ended_round {d : Delimiter} {s m : TcpSocket} {t : Turn} {loop : TcpSocket → Reply × TcpSocket}
    (h : Waited [d] s m) (hloop : ∀ m', Waited [d] s m' → Ended d s (loop m')) :
    Ended d s (match m.bufferedRecv t with
      | (.error e, m) => (.thrown e, m)
      | (.ok _, m) =>
        match m.search d with
        | (n, buf, m) => if 0 < n then (.returned buf.length buf, m) else loop m) := by
  split
  next e m' hr => exact .thrown h hr
  next n m' hr =>
    have hm := Waited.refill h hr
    split
    next n buf m'' hs =>
      split
      next => exact .searched hm hs
      next hn =>
        obtain rfl : n = 0 := by omega
        exact hloop m'' (.missed hm (List.mem_singleton_self d) hs)

theorem readUntilForever_ended {d : Delimiter} {s m : TcpSocket} (h : Waited [d] s m) (ts : List Turn) :
    Ended d s (readUntilForever d m ts) := by
  induction ts generalizing m with
  | nil => exact .waiting h
  | cons t ts ih =>
    simp only [readUntilForever]
    split
    next => exact .failed h
    next => exact ih h
    next => exact ended_round h fun m' hm => ih hm

theorem readUntilTimer_ended {d : Delimiter} {timer : UInt32} {s m : TcpSocket} (h : Waited [d] s m)
    (msec : Int) (ts : List Turn) : Ended d s (readUntilTimer d timer m msec ts) := by
  induction ts generalizing m msec with
  | nil =>
    simp only [readUntilTimer]
    split
    next => exact .waiting h
    next => exact .timeout h
  | cons t ts ih =>
    simp only [readUntilTimer]
    split
    next =>
      split
      next => exact .failed h
      next => exact .timeout h
      next => exact ended_round h fun m' hm => ih hm _
    next => exact .timeout h

theorem readUntil_ended (s : TcpSocket) (d : Delimiter) (msec : Int) (start : UInt32) (ts : List Turn) :
    Ended d s (s.readUntil d msec start ts) := by
  rcases hs : s.search d with ⟨n, buf, m⟩
  simp only [readUntil, hs]
  split
  next => exact .searched .refl hs
  next hn =>
    obtain rfl : n = 0 := by omega
    have hm : Waited [d] s m := .missed .refl (List.mem_singleton_self d) hs
    split
    next =>
      split
      next => exact .waiting hm
      next t _ =>
        split
        next hr => exact .thrown hm hr
        next hr => exact .searched (.refill hm hr) rfl
    next =>
      split
      next => exact readUntilForever_ended hm ts
      next => exact readUntilTimer_ended hm msec ts

/-- The ends of a `readAll`. -/
inductive AllRead (len : UInt32) (s : TcpSocket) : Reply × TcpSocket → Prop
  | read {m} : Waited [] s m → len.toNat ≤ m.buffer.remaining →
      AllRead len s (m.replied (m.buffer.readString (len - 1).toNat))
  | failed {m e} : Waited [] s m → AllRead len s (.thrown e, m)
  | thrown {m m' t e} : Waited [] s m → m.bufferedRecv t = (.error e, m') → AllRead len s (.thrown e, m')
  | waiting {m} : Waited [] s m → AllRead len s (.waiting, m)

theorem readAll_ended {len : UInt32} {s m : TcpSocket} (h : Waited [] s m) (ts : List Turn) :
    AllRead len s (readAll len m ts) := by
  induction ts generalizing m with
  | nil =>
    simp only [readAll]
    split
    next => exact .waiting h
    next hl => exact .read h (Nat.not_lt.mp hl)
  | cons t ts ih =>
    simp only [readAll]
    split
    next =>
      split
      next => exact .failed h
      next => exact .failed h
      next =>
        split
        next hr => exact .thrown h hr
        next hr => exact ih (.refill h hr)
    next hl => exact .read h (Nat.not_lt.mp hl)

section Preserved

variable {P : TcpSocket → Prop}

theorem Waited.preserves {ds : List Delimiter} {s m : TcpSocket} (h : Waited ds s m)
    (hrefill : ∀ s t, P s → P (s.bufferedRecv t).2) (hsearch : ∀ s d, P s → P (s.search d).2.2)
    (hp : P s) : P m := by
  induction h with
  | refl => exact hp
  | @refill m m' t n _ hr ih => exact (congrArg (P ·.2) hr).mp (hrefill m t ih)
  | @missed m m' d buf _ _ hs ih => exact (congrArg (P ·.2.2) hs).mp (hsearch m d ih)

theorem Ended.preserves {d : Delimiter} {s : TcpSocket} {r : Reply × TcpSocket} (h : Ended d s r)
    (hrefill : ∀ s t, P s → P (s.bufferedRecv t).2) (hsearch : ∀ s d, P s → P (s.search d).2.2)
    (hp : P s) : P r.2 := by
  cases h with
  | searched hm hs =>
    exact (congrArg (P ·.2.2) hs).mp (hsearch _ d (hm.preserves hrefill hsearch hp))
  | timeout hm => exact hm.preserves hrefill hsearch hp
  | failed hm => exact hm.preserves hrefill hsearch hp
  | thrown hm hr =>
    exact (congrArg (P ·.2) hr).mp (hrefill _ _ (hm.preserves hrefill hsearch hp))
  | waiting hm => exact hm.preserves hrefill hsearch hp

theorem bufferedRecv_call_preserves {s : TcpSocket} (hrefill : ∀ s t, P s → P (s.bufferedRecv t).2)
    (hp : P s) (ts : List Turn) : P (s.call .bufferedRecv ts).2 := by
  cases ts with
  | nil => exact hp
  | cons t ts =>
    have h := hrefill s t hp
    simp only [call]
    split
    next hr => simpa [hr] using h
    next hr => simpa [hr] using h

end Preserved

end TcpSocket

open TcpSocket

/-- What holds of a socket after any calls. -/
structure TcpSocket.Sound (s : TcpSocket) : Prop where
  buffer : s.buffer.Sound
  max_size : s.max_size = 512000

theorem ByteBuffer.WriteMode.sound {a b : ByteBuffer} (h : WriteMode a b) (ha : a.Sound) : b.Sound :=
  ⟨h.pos, h.length.trans h.pos, lt_of_lt_of_le ha.size_pos h.size, h.size_le⟩

theorem ByteBuffer.Read.sound {b : ByteBuffer} {d : Delimiter} {r : Nat × Bytes × ByteBuffer}
    (h : b.Read d r) (hb : b.Sound) : r.2.2.Sound := by
  cases h with
  | hit _ _ _ hl _ _ => exact ⟨hl, hb.length, hb.size_pos, hb.size_le⟩
  | far | missing _ => exact hb
  | outside _ _ _ _ _ => exact ⟨hb.pos, hb.length, hb.size_pos, hb.size_le⟩

theorem ByteBuffer.Sound.read {b : ByteBuffer} (h : b.Sound) (n : Nat) : (b.read n).2.Sound := by
  simp only [ByteBuffer.read]
  split
  next => exact h
  next =>
    split
    next => exact ⟨h.pos, h.length, h.size_pos, h.size_le⟩
    next hl => exact ⟨Nat.not_lt.mp hl, h.length, h.size_pos, h.size_le⟩

theorem ByteBuffer.Sound.readChars {b : ByteBuffer} (h : b.Sound) (k n : Nat) :
    (b.readChars k n).2.Sound := by
  have hr := h.read n
  simp only [ByteBuffer.readChars]
  split
  next =>
    split
    next hb => simpa [hb] using hr
    next hb => simpa [hb] using hr
  next => exact h

theorem ByteBuffer.Sound.readString {b : ByteBuffer} (h : b.Sound) (n : Nat) :
    (b.readString n).2.Sound := by
  have hr := h.read 4
  simp only [ByteBuffer.readString]
  split
  next =>
    split
    next hb => simpa [hb] using hr
    next hb =>
      rw [hb] at hr
      exact hr.readChars ..
  next => exact h.readChars ..

namespace TcpSocket

theorem Refilled.sound {s : TcpSocket} {r : Except Thrown Nat × TcpSocket} (h : s.Refilled r)
    (hs : s.Sound) : r.2.Sound := by
  cases h with
  | thrown hw => exact ⟨hw.sound hs.buffer, hs.max_size⟩
  | @stored b data hw hl =>
    have hb := hw.sound hs.buffer
    refine ⟨⟨Nat.zero_le _, ?_, ?_, ?_⟩, hs.max_size⟩
    · show (if 0 < data.length then data.length + b.pos else b.length) ≤ (b.store b.pos data).size
      have := hb.length
      rw [size_store]
      split <;> omega
    · show 0 < (b.store b.pos data).size
      rw [size_store]
      exact hb.size_pos
    · show (b.store b.pos data).size ≤ _
      rw [size_store]
      exact hb.size_le

theorem Sound.refill (s : TcpSocket) (t : Turn) (h : s.Sound) : (s.bufferedRecv t).2.Sound :=
  (bufferedRecv_spec h.buffer h.max_size t).sound h

theorem Sound.search (s : TcpSocket) (d : Delimiter) (h : s.Sound) : (s.search d).2.2.Sound :=
  ⟨(readUntil_spec s.buffer d).sound h.buffer, h.max_size⟩

theorem Sound.replied {s : TcpSocket} (h : s.Sound) (n : Nat) :
    (s.replied (s.buffer.readString n)).2.Sound := by
  have hr := h.buffer.readString n
  cases hb : s.buffer.readString n with
  | mk r b =>
    rw [hb] at hr
    cases r with
    | error e => exact ⟨hr, h.max_size⟩
    | ok x => exact ⟨hr, h.max_size⟩

theorem direct_snd (s : TcpSocket) (len : Nat) (msec : Int) (ts : List Turn) :
    (s.direct len msec ts).2 = s := by
  cases ts with
  | nil => rfl
  | cons t ts =>
    simp only [direct]
    split <;> rfl

theorem AllRead.sound {len : UInt32} {s : TcpSocket} {r : Reply × TcpSocket} (h : AllRead len s r)
    (hs : s.Sound) : r.2.Sound := by
  cases h with
  | read hm _ => exact (hm.preserves Sound.refill Sound.search hs).replied _
  | failed hm => exact hm.preserves Sound.refill Sound.search hs
  | thrown hm hb =>
    exact (congrArg (·.2.Sound) hb).mp (Sound.refill _ _ (hm.preserves Sound.refill Sound.search hs))
  | waiting hm => exact hm.preserves Sound.refill Sound.search hs

theorem Sound.call {s : TcpSocket} (h : s.Sound) (c : Call) (ts : List Turn) : (s.call c ts).2.Sound := by
  cases c with
  | bufferedRecv => exact bufferedRecv_call_preserves Sound.refill h ts
  | readUntil d msec start =>
    exact (readUntil_ended s d msec start ts).preserves Sound.refill Sound.search h
  | readAll len => exact (readAll_ended .refl ts).sound h
  | read len msec =>
    have hr := h.buffer.read len.toNat
    simp only [TcpSocket.call, TcpSocket.read]
    split
    next =>
      split
      next hb => exact ⟨by simpa [hb] using hr, h.max_size⟩
      next hb => exact ⟨by simpa [hb] using hr, h.max_size⟩
    next => rwa [direct_snd]
  | readString len msec =>
    simp only [TcpSocket.call, TcpSocket.readString]
    split
    next => exact h.replied _
    next => rwa [direct_snd]

theorem new_spec (fresh : Nat → UInt8) :
    (new fresh).buffer.size = 1040 ∧ (new fresh).buffer.length = 0 ∧ (new fresh).buffer.pos = 0 ∧
      (new fresh).buffer.outside = false := by
  obtain ⟨hs, hl, hp, ho, -⟩ := resize_spec
    (b := { buffer := [], length := 0, pos := 0, outside := false }) fresh
    (by decide : 0 < 1024) (by decide)
  exact ⟨hs, hl, hp, ho⟩

theorem new_sound (fresh : Nat → UInt8) : (new fresh).Sound := by
  obtain ⟨hs, hl, hp, -⟩ := new_spec fresh
  exact ⟨⟨by omega, by omega, by omega, by omega⟩, rfl⟩

theorem run_sound {allowed : Call → Reply → Prop} {done : List (Call × Reply)} {s : TcpSocket}
    (h : Run allowed done s) : s.Sound := by
  induction h with
  | new fresh => exact new_sound fresh
  | call _ _ ih => exact ih.call _ _

end TcpSocket

end Srl
