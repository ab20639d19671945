import Srl.ByteBuffer

namespace Srl

open Cells

theorem and_mask {x k : Nat} (hk : k ≤ 32) (h : x < 2 ^ 32) : x &&& (2 ^ 32 - 2 ^ k) = x / 2 ^ k * 2 ^ k := by
  apply Nat.eq_of_testBit_eq
  intro i
  have hm : 2 ^ 32 - 2 ^ k = (2 ^ (32 - k) - 1) <<< k := by
    rw [Nat.shiftLeft_eq, Nat.sub_mul, ← Nat.pow_add, Nat.sub_add_cancel hk, Nat.one_mul]
  have hx : x / 2 ^ k * 2 ^ k = (x >>> k) <<< k := by
    rw [Nat.shiftLeft_eq, Nat.shiftRight_eq_div_pow]
  rw [hm, hx, Nat.testBit_and, Nat.testBit_shiftLeft, Nat.testBit_shiftLeft,
    Nat.testBit_two_pow_sub_one, Nat.testBit_shiftRight]
  by_cases hki : k ≤ i
  · have hi : k + (i - k) = i := by omega
    simp only [ge_iff_le, hki, decide_true, Bool.true_and, hi]
    by_cases hlt : i - k < 32 - k
    · simp [hlt]
    · simp only [hlt, decide_false, Bool.and_false]
      symm
      apply Nat.testBit_lt_two_pow
      exact lt_of_lt_of_le h (Nat.pow_le_pow_right (by decide) (by omega))
  · simp [hki]

theorem roundup_pow {n k : Nat} (hk : k ≤ 32) (h : n + 2 ^ k - 1 < 2 ^ 32) :
    roundup n (2 ^ k) = (n + 2 ^ k - 1) / 2 ^ k * 2 ^ k := by
  rw [roundup, Nat.mod_eq_of_lt h, and_mask hk h]

theorem lt_roundup {n k : Nat} (hk : k ≤ 32) (h : n + 2 ^ k < 2 ^ 32) : n < roundup (n + 1) (2 ^ k) := by
  have hpow := Nat.two_pow_pos k
  have hsub : n + 1 + 2 ^ k - 1 = n + 2 ^ k := by omega
  have hlt := Nat.lt_div_mul_add (a := n + 2 ^ k) hpow
  rw [roundup_pow hk (by omega), hsub]
  omega

theorem roundup_eq {n : Nat} (h : n + 15 < 2 ^ 32) : roundup n 16 = (n + 15) / 16 * 16 :=
  @roundup_pow n 4 (by decide) h

namespace ByteBuffer

@[simp] theorem size_store (b : ByteBuffer) (i : Nat) (data : Bytes) :
    (b.store i data).size = b.size := by
  simp [store, size]

@[simp] theorem length_store (b : ByteBuffer) (i : Nat) (data : Bytes) :
    (b.store i data).length = b.length := rfl

@[simp] theorem pos_store (b : ByteBuffer) (i : Nat) (data : Bytes) :
    (b.store i data).pos = b.pos := rfl

theorem outside_store {b : ByteBuffer} {i : Nat} {data : Bytes} (h : i + data.length ≤ b.size) :
    (b.store i data).outside = b.outside := by
  simp [store, Nat.not_lt.mpr h]

theorem outside_reach {b : ByteBuffer} {n : Nat} (h : n ≤ b.size) : b.reach n = b := by
  simp [reach, Nat.not_lt.mpr h]

theorem length_unread {b : ByteBuffer} (h : b.length ≤ b.size) :
    b.unread.length = b.length - b.pos := by
  rw [unread, length_window, ← size, Nat.min_eq_left h]

theorem remaining_eq {b : ByteBuffer} (h : b.pos ≤ b.length) (hl : b.length < 2 ^ 32) :
    b.remaining = b.length - b.pos := by
  simp only [remaining]
  omega

theorem setPosition_ok {b b' : ByteBuffer} {pos : Nat} :
    b.setPosition pos = .ok b' ↔ b' = { b with pos := pos } ∧ pos ≤ b.size := by
  unfold setPosition
  split
  next h => simp [h]
  next h =>
    rw [Except.ok.injEq]
    exact ⟨fun hb => ⟨hb.symm, Nat.not_lt.mp h⟩, fun hb => hb.1.symm⟩

/-- The new memory has the rounded size, and the bytes before its last one are kept. -/
theorem resize_spec {b : ByteBuffer} {n : Nat} (fresh : Nat → UInt8) (h0 : 0 < n)
    (h : n + 16 < 2 ^ 32) :
    (b.resize n fresh).size = (n + 16) / 16 * 16 ∧ (b.resize n fresh).length = b.length ∧
      (b.resize n fresh).pos = b.pos ∧ (b.resize n fresh).outside = b.outside ∧
      ∀ i j, j ≤ b.size → j < (n + 16) / 16 * 16 →
        window (b.resize n fresh).buffer i j = window b.buffer i j := by
  have hr : roundup (n + 1) 16 = (n + 16) / 16 * 16 := roundup_eq (by omega)
  simp only [resize, h0, ↓reduceIte, hr]
  have hpos : 0 < (n + 16) / 16 * 16 := by omega
  generalize (n + 16) / 16 * 16 = r at *
  split
  next hs =>
    subst hs
    refine ⟨size_store .., rfl, rfl, outside_store ?_, fun i j hj hlt => ?_⟩
    · simp only [List.length_singleton]
      omega
    · exact window_overwrite (by omega) (by rw [size] at *; omega)
  next hs =>
    refine ⟨?_, rfl, rfl, ?_, fun i j hj hlt => ?_⟩
    · rw [size_store]
      exact length_realloc ..
    · apply outside_store
      simp only [size, length_realloc, List.length_singleton]
      omega
    · exact (window_overwrite (by omega) (by rw [length_realloc]; omega)).trans
        (window_realloc fresh (by omega) hj)

/-- The unread bytes come to the front; only a terminator behind a full allocation falls outside. -/
theorem moveStart_spec {b : ByteBuffer} (h : b.pos < b.length) (hl : b.length ≤ b.size) :
    b.moveStart.size = b.size ∧ b.moveStart.length = b.length - b.pos ∧
      b.moveStart.pos = b.length - b.pos ∧
      window b.moveStart.buffer 0 (b.length - b.pos) = b.unread ∧
      b.moveStart.outside = (b.outside || decide (b.length - b.pos = b.size)) := by
  have hn : b.unread.length = b.length - b.pos := length_unread hl
  have hc : b.pos < b.length ∧ 0 < b.length := ⟨h, by omega⟩
  have ho : (b.store 0 b.unread).outside = b.outside := outside_store (by omega)
  have hs : (b.store 0 b.unread).size = b.size := size_store ..
  simp only [moveStart, hc, and_self, ↓reduceIte, outside_reach hl]
  refine ⟨by rw [size_store]; exact hs, rfl, rfl, ?_, ?_⟩
  · have hw : window (b.store 0 b.unread).buffer 0 (0 + b.unread.length) = b.unread :=
      window_overwrite_self (by rw [← size]; omega)
    rw [Nat.zero_add, hn] at hw
    refine (window_overwrite (le_refl _) ?_).trans hw
    show _ ≤ (b.store 0 b.unread).size
    omega
  · show ((b.store 0 b.unread).outside || decide ((b.store 0 b.unread).size < _ + 1)) = _
    rw [ho, hs]
    congr 1
    exact decide_eq_decide.mpr (by omega)

end ByteBuffer

end Srl
