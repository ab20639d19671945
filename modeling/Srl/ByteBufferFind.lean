import Srl.ByteBufferOps

namespace Srl

open Cells

namespace ByteBuffer

/-- The delimiter stands at `i` as far as the allocation shows it; an empty `String` is never all of
what `find` compares. -/
def Stands (b : ByteBuffer) (d : Delimiter) (i : Nat) : Prop :=
  ∀ p c, (p < d.width ∨ d.width = 0) → b.buffer[i + p]? = some c → d.agrees p c = true

theorem agree_differs_iff {d : Delimiter} {rest : Bytes} {p : Nat} (hp : p < d.width ∨ d.width = 0) :
    agree d rest p = .differs ↔
      ¬ ∀ q c, (p + q < d.width ∨ d.width = 0) → rest[q]? = some c → d.agrees (p + q) c = true := by
  induction rest generalizing p with
  | nil => simp [agree]
  | cons a rest ih =>
    have hcons : (∀ q c, (p + q < d.width ∨ d.width = 0) → (a :: rest)[q]? = some c →
        d.agrees (p + q) c = true) ↔ d.agrees p a = true ∧
        ∀ q c, (p + 1 + q < d.width ∨ d.width = 0) → rest[q]? = some c →
          d.agrees (p + 1 + q) c = true := by
      constructor
      · intro h
        refine ⟨h 0 a hp rfl, fun q c hq hc => ?_⟩
        have hpq : p + 1 + q = p + (q + 1) := by omega
        rw [hpq] at hq ⊢
        exact h (q + 1) c hq hc
      · rintro ⟨h0, h⟩ q c hq hc
        cases q with
        | zero =>
          obtain rfl : a = c := by simpa using hc
          exact h0
        | succ q =>
          have hpq : p + (q + 1) = p + 1 + q := by omega
          rw [hpq] at hq ⊢
          exact h q c hq hc
    rw [hcons, agree]
    split
    next ha =>
      split
      next hw =>
        -- the whole delimiter was compared
        simp only [ha, true_and, reduceCtorEq, false_iff, not_not]
        intro q c hq
        omega
      next hw => rw [ih (by omega)]; simp [ha]
    next ha => simp [ha]

theorem agree_hit {d : Delimiter} {rest : Bytes} {p : Nat} (h : agree d rest p = .hit) :
    0 < d.width ∧ d.width ≤ p + rest.length := by
  induction rest generalizing p with
  | nil => simp [agree] at h
  | cons a rest ih =>
    simp only [agree] at h
    split at h
    next =>
      split at h
      next hw => simp only [List.length_cons]; omega
      next =>
        obtain ⟨h0, hl⟩ := ih h
        simp only [List.length_cons]
        omega
    next => simp at h

theorem agree_outside {d : Delimiter} {rest : Bytes} {p : Nat} (hp : p < d.width ∨ d.width = 0)
    (h : agree d rest p = .outside) : d.width = 0 ∨ p + rest.length < d.width := by
  induction rest generalizing p with
  | nil => simp only [List.length_nil]; omega
  | cons a rest ih =>
    simp only [agree] at h
    split at h
    next =>
      split at h
      next hw => simp at h
      next hw =>
        have := ih (by omega) h
        simp only [List.length_cons]
        omega
    next => simp at h

theorem stands_char {b : ByteBuffer} {c : UInt8} {i : Nat} :
    b.Stands (.char c) i ↔ ∀ v, b.buffer[i]? = some v → v = c := by
  constructor
  · intro h v hv
    simpa [Delimiter.agrees] using h 0 v (.inl Nat.zero_lt_one) hv
  · intro h p v hp hv
    obtain rfl : p = 0 := by simpa [Delimiter.width] using hp
    simpa [Delimiter.agrees] using h v hv

theorem probe_differs_iff {b : ByteBuffer} {d : Delimiter} {i : Nat} :
    b.probe d i = .differs ↔ ¬ b.Stands d i := by
  cases d with
  | char c =>
    rw [stands_char]
    simp only [probe]
    cases hv : b.buffer[i]? with
    | none => simp
    | some v => by_cases hc : v = c <;> simp [hc]
  | text str past =>
    rw [probe, agree_differs_iff (by omega)]
    simp [Stands]

theorem probe_hit {b : ByteBuffer} {d : Delimiter} {i : Nat} (h : b.probe d i = .hit) :
    0 < d.width ∧ i + d.width ≤ b.size := by
  cases d with
  | char c =>
    simp only [probe] at h
    cases hv : b.buffer[i]? with
    | none => simp [hv] at h
    | some v =>
      obtain ⟨hlt, -⟩ := List.getElem?_eq_some_iff.mp hv
      exact ⟨Nat.zero_lt_one, hlt⟩
  | text str past =>
    obtain ⟨h0, hl⟩ := agree_hit h
    rw [List.length_drop] at hl
    simp only [size]
    omega

theorem probe_outside {b : ByteBuffer} {d : Delimiter} {i : Nat} (h : b.probe d i = .outside) :
    d.width = 0 ∨ b.size < i + d.width := by
  cases d with
  | char c =>
    simp only [probe] at h
    cases hv : b.buffer[i]? with
    | none =>
      have := List.getElem?_eq_none_iff.mp hv
      simp only [Delimiter.width, size]
      omega
    | some v =>
      simp only [hv] at h
      split at h <;> simp at h
  | text str past =>
    have := agree_outside (by omega) h
    rw [List.length_drop] at this
    simp only [size]
    omega

/-- What a search says of the indices it went through. -/
def FoundAt (b : ByteBuffer) (d : Delimiter) (i n : Nat) : Found → Prop
  | .hit k => i ≤ k ∧ k < i + n ∧ b.probe d k = .hit ∧ ∀ j, i ≤ j → j < k → ¬ b.Stands d j
  | .missing => ∀ j, i ≤ j → j < i + n → ¬ b.Stands d j
  | .outside => ∃ k, i ≤ k ∧ k < i + n ∧ b.probe d k = .outside ∧ ∀ j, i ≤ j → j < k → ¬ b.Stands d j

theorem findLoop_spec (b : ByteBuffer) (d : Delimiter) (n i : Nat) :
    b.FoundAt d i n (b.findLoop d n i) := by
  induction n generalizing i with
  | zero =>
    intro j hj hlt
    omega
  | succ n ih =>
    simp only [findLoop]
    cases hp : b.probe d i with
    | hit => exact ⟨le_refl i, by omega, hp, fun j hj hlt => by omega⟩
    | outside => exact ⟨i, le_refl i, by omega, hp, fun j hj hlt => by omega⟩
    | differs =>
      have hi : ¬ b.Stands d i := probe_differs_iff.mp hp
      have from_next : ∀ {k}, (∀ j, i + 1 ≤ j → j < k → ¬ b.Stands d j) →
          ∀ j, i ≤ j → j < k → ¬ b.Stands d j := by
        intro k h j hj hlt
        obtain rfl | hj := Nat.eq_or_lt_of_le hj
        · exact hi
        · exact h j hj hlt
      have h := ih (i + 1)
      simp only
      cases hf : b.findLoop d n (i + 1) with
      | hit k =>
        rw [hf] at h
        obtain ⟨hk, hlt, hh, hb⟩ := h
        exact ⟨by omega, by omega, hh, from_next hb⟩
      | missing =>
        rw [hf] at h
        intro j hj hlt
        exact from_next h j hj (by omega)
      | outside =>
        rw [hf] at h
        obtain ⟨k, hk, hlt, hh, hb⟩ := h
        exact ⟨k, by omega, by omega, hh, from_next hb⟩

/-- How a `readUntil` ends: at the first delimiter, at one too far for an `int32`, without one, or outside
the allocation. -/
inductive Read (b : ByteBuffer) (d : Delimiter) : Nat × Bytes × ByteBuffer → Prop
  | hit {i} : b.pos ≤ i → i < b.length → 0 < d.width → i + d.width ≤ b.size → b.Stands d i →
      (∀ j, b.pos ≤ j → j < i → ¬ b.Stands d j) →
      Read b d (i + d.width - b.pos, window b.buffer b.pos (i + d.width), { b with pos := i + d.width })
  | far {i} : 2 ^ 31 ≤ i → i + d.width ≤ b.size → Read b d (0, [], b)
  | missing : (∀ j, b.pos ≤ j → j < b.length → ¬ b.Stands d j) → Read b d (0, [], b)
  | outside {i} : b.pos ≤ i → i < b.length → (d.width = 0 ∨ b.size < i + d.width) → b.Stands d i →
      (∀ j, b.pos ≤ j → j < i → ¬ b.Stands d j) → Read b d (0, [], { b with outside := true })

theorem readUntil_spec (b : ByteBuffer) (d : Delimiter) : b.Read d (b.readUntil d) := by
  have stands {i} (h : b.probe d i ≠ .differs) : b.Stands d i := by
    rwa [Ne, probe_differs_iff, not_not] at h
  have h := findLoop_spec b d (b.length - b.pos) b.pos
  simp only [readUntil, find]
  cases hf : b.findLoop d (b.length - b.pos) b.pos with
  | hit i =>
    rw [hf] at h
    obtain ⟨hi, hlt, hp, hb⟩ := h
    obtain ⟨h0, hl⟩ := probe_hit hp
    simp only
    split
    next => exact .hit hi (by omega) h0 hl (stands (by simp [hp])) hb
    next hfar => exact .far (by omega) hl
  | missing =>
    rw [hf] at h
    exact .missing fun j hj hlt => h j hj (by omega)
  | outside =>
    rw [hf] at h
    obtain ⟨i, hi, hlt, hp, hb⟩ := h
    exact .outside hi (by omega) (probe_outside hp) (stands (by simp [hp])) hb

end ByteBuffer

end Srl
