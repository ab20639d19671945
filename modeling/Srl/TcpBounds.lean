import Srl.TcpCalls

namespace Srl

open Cells ByteBuffer

/-- No index past the allocation was used, and `_pos <= _length <= _size`. -/
def ByteBuffer.InBounds (b : ByteBuffer) : Prop :=
  b.outside = false ∧ b.pos ≤ b.length ∧ b.length ≤ b.size

/-- A refill leaves a byte for the terminator of `moveStart`, and where the delimiter first stands as
far as the allocation shows it, all of it is there before the length. -/
def Begun.Fits : Begun → Prop
  | refill b => b.length - b.pos < b.size
  | search d b => ∀ i, b.pos ≤ i → i < b.length → b.Stands d i →
      (∀ j, b.pos ≤ j → j < i → ¬ b.Stands d j) → 0 < d.width ∧ i + d.width ≤ b.length

/-- The buffered reads, however they end. -/
def Call.buffered : Call → Reply → Prop
  | .bufferedRecv, _ => True
  | .readUntil _ _ _, _ => True
  | _, _ => False

namespace TcpSocket

theorem Refilled.inBounds {s : TcpSocket} {r : Except Thrown Nat × TcpSocket} (h : s.Refilled r)
    (hs : s.buffer.InBounds) (hsound : s.Sound) : r.2.buffer.InBounds ↔ (Begun.refill s.buffer).Fits := by
  obtain ⟨ho, hpos, -⟩ := hs
  have hr := h.sound hsound
  have hlen := hsound.buffer.length
  have hfits : (Begun.refill s.buffer).Fits ↔ ¬ s.buffer.length - s.buffer.pos = s.buffer.size := by
    show _ - _ < _ ↔ _
    omega
  rw [hfits]
  cases h with
  | @thrown b e hw =>
    obtain ⟨hl, hp, -⟩ := hw.kept hpos
    have hout := hw.outside
    simp only [ho, Bool.false_or] at hout
    simp only [InBounds, hout, decide_eq_false_iff_not]
    exact and_iff_left ⟨by omega, hr.buffer.length⟩
  | @stored b data hw hl =>
    have hout : (b.store b.pos data).outside = b.outside := outside_store hl
    rw [hw.outside, ho, Bool.false_or] at hout
    simp only [InBounds]
    show (b.store b.pos data).outside = false ∧ _ ↔ _
    rw [hout, decide_eq_false_iff_not]
    exact and_iff_left ⟨Nat.zero_le _, hr.buffer.length⟩

theorem search_inBounds_iff {s : TcpSocket} {d : Delimiter} (hs : s.buffer.InBounds) (hsound : s.Sound) :
    (s.search d).2.2.buffer.InBounds ↔ (Begun.search d s.buffer).Fits := by
  obtain ⟨ho, hpos, hlen⟩ := hs
  have hr := readUntil_spec s.buffer d
  show (s.buffer.readUntil d).2.2.InBounds ↔ _
  simp only [Begun.Fits]
  generalize s.buffer.readUntil d = r at hr
  cases hr with
  | @hit i hi hlt h0 hl hst hb =>
    constructor
    · rintro ⟨-, hp, -⟩ j hj hjl hjst hjb
      obtain rfl : j = i := by
        rcases Nat.lt_trichotomy j i with hji | hji | hji
        · exact absurd hjst (hb j hj hji)
        · exact hji
        · exact absurd hst (hjb i hi hji)
      exact ⟨h0, hp⟩
    · intro h
      exact ⟨ho, (h i hi hlt hst hb).2, hlen⟩
  | far hfar hl =>
    have := hsound.buffer.size_le
    omega
  | missing hb => exact ⟨fun _ i hi hlt hst _ => absurd hst (hb i hi hlt), fun _ => ⟨ho, hpos, hlen⟩⟩
  | @outside i hi hlt hw hst hb =>
    constructor
    · rintro ⟨hout, -⟩
      simp at hout
    · intro h
      have := h i hi hlt hst hb
      omega

/-- Each buffer of the history and the present one are in bounds just if each step found room. -/
structure Traced (s : TcpSocket) : Prop where
  sound : s.Sound
  fits : ((∀ x ∈ s.begun, x.buffer.InBounds) ∧ s.buffer.InBounds) ↔ ∀ x ∈ s.begun, x.Fits

theorem Traced.step {s s' : TcpSocket} {x : Begun} (h : s.Traced) (hs : s'.Sound)
    (hb : s'.begun = s.begun ++ [x]) (hx : x.buffer = s.buffer)
    (hstep : s.buffer.InBounds → (s'.buffer.InBounds ↔ x.Fits)) : s'.Traced := by
  refine ⟨hs, ?_⟩
  have hall : ∀ p : Begun → Prop, (∀ y ∈ s'.begun, p y) ↔ (∀ y ∈ s.begun, p y) ∧ p x := by
    intro p
    simp only [hb, List.mem_append, List.mem_singleton, or_imp, forall_and, forall_eq]
  rw [hall, hall, ← h.fits, hx]
  constructor
  · rintro ⟨⟨ha, hi⟩, hi'⟩
    exact ⟨⟨ha, hi⟩, (hstep hi).mp hi'⟩
  · rintro ⟨⟨ha, hi⟩, hf⟩
    exact ⟨⟨ha, hi⟩, (hstep hi).mpr hf⟩

theorem Refilled.begun {s : TcpSocket} {r : Except Thrown Nat × TcpSocket} (h : s.Refilled r) :
    r.2.begun = s.begun ++ [.refill s.buffer] := by
  cases h <;> rfl

theorem Traced.refill (s : TcpSocket) (t : Turn) (h : s.Traced) : (s.bufferedRecv t).2.Traced := by
  have hr := bufferedRecv_spec h.sound.buffer h.sound.max_size t
  exact h.step (hr.sound h.sound) hr.begun rfl fun hi => hr.inBounds hi h.sound

theorem Traced.search (s : TcpSocket) (d : Delimiter) (h : s.Traced) : (s.search d).2.2.Traced :=
  h.step (Sound.search s d h.sound) rfl rfl fun hi => search_inBounds_iff hi h.sound

/-- In a run of buffered reads the indices stay inside the allocation, and `_pos <= _length <= _size`
holds, just if each step that was begun found room. -/
theorem inBounds_iff {done : List (Call × Reply)} {s : TcpSocket} (h : Run Call.buffered done s) :
    ((∀ x ∈ s.begun, x.buffer.InBounds) ∧ s.buffer.InBounds) ↔ ∀ x ∈ s.begun, x.Fits := by
  suffices s.Traced from this.fits
  induction h with
  | new fresh =>
    obtain ⟨-, hl, hp, ho⟩ := new_spec fresh
    refine ⟨new_sound fresh, fun _ x hx => ?_, fun _ => ⟨fun x hx => ?_, ho, by omega, by omega⟩⟩
    · simp [new] at hx
    · simp [new] at hx
  | @call done s c ts _ ha ih =>
    cases c with
    | bufferedRecv => exact bufferedRecv_call_preserves Traced.refill ih ts
    | readUntil d msec start =>
      exact (readUntil_ended s d msec start ts).preserves Traced.refill Traced.search ih
    | readAll len => exact ha.elim
    | read len msec => exact ha.elim
    | readString len msec => exact ha.elim

/-- A peer that is ready and sends as many `c` as there is room for. -/
def flood (c : UInt8) : Turn where
  wait := .ready
  connected := true
  poll := .ready
  recv len := if h : 0 < len then .chunk (List.replicate len c) (by simpa using h) else .closed
  fresh _ := 0
  timer := 0

/-- A new socket after the first refill, which fills the whole allocation. -/
def filled : TcpSocket := ((new fun _ => 0).call .bufferedRecv [flood 65]).2

theorem run_filled : Run Call.buffered [(.bufferedRecv, ((new fun _ => 0).call .bufferedRecv [flood 65]).1)]
    filled :=
  .call (.new _) trivial

theorem inBounds_iff_filled :
    ((∀ x ∈ filled.begun, x.buffer.InBounds) ∧ filled.buffer.InBounds) ↔ ∀ x ∈ filled.begun, x.Fits :=
  inBounds_iff run_filled

/-- The terminator of a full allocation is written one byte behind it. -/
theorem not_inBounds_full : ¬ ∀ done s, Run Call.buffered done s → s.buffer.InBounds := by
  intro h
  have hb := h _ (filled.call .bufferedRecv [flood 66]).2 (.call run_filled trivial)
  have ho : (filled.call .bufferedRecv [flood 66]).2.buffer.outside = true := by decide +kernel
  rw [hb.1] at ho
  exact Bool.noConfusion ho

end TcpSocket

end Srl
