import Srl.DictionaryRuns
import Srl.Bytes

namespace Srl

variable {Value : Type}

/-- `String::Hash(const String&)`; the entry keeps it as an `int`. -/
instance : Hasher Bytes := ⟨fun s => s.hash.toBitVec.toInt⟩

theorem hash_eq_iff {k₁ k₂ : Bytes} :
    (Hasher.hash k₁ : Int) = Hasher.hash k₂ ↔ k₁.hash = k₂.hash := by
  rw [show (Hasher.hash k₁ : Int) = k₁.hash.toBitVec.toInt from rfl,
    show (Hasher.hash k₂ : Int) = k₂.hash.toBitVec.toInt from rfl, BitVec.toInt_inj,
    UInt32.toBitVec_inj]

namespace Dictionary

variable [Inhabited Value] {d : Dictionary Bytes Value} {m : List (Bytes × Value)}

/-- Adding, assigning or removing the first key does not show at the second one. -/
def Apart (d : Dictionary Bytes Value) (k₁ k₂ : Bytes) : Prop :=
  ∀ op : Op Bytes Value, (op = .remove k₁ ∨ op = .index k₁ ∨ ∃ v, op = .add k₁ v ∨ op = .assign k₁ v) →
    ∀ d', op.apply d = some (.ok d') → d'.hasKey k₂ = d.hasKey k₂ ∧ d'.get k₂ = d.get k₂ ∧
      ∀ v x, d'.add k₂ v = some (.error x) ↔ d.add k₂ v = some (.error x)

/-- The operations on a key only change the binding with its hash. -/
theorem lookup_onBindings {op : Op Bytes Value} {k₁ : Bytes} {h : Int}
    (hop : op = .remove k₁ ∨ op = .index k₁ ∨ ∃ v, op = .add k₁ v ∨ op = .assign k₁ v)
    (hne : h ≠ Hasher.hash k₁) :
    KeyedList.lookup Hasher.hash (op.onBindings d m) h = KeyedList.lookup Hasher.hash m h := by
  rcases hop with rfl | rfl | ⟨v, rfl | rfl⟩ <;> simp only [Op.onBindings]
  · exact KeyedList.lookup_erase_ne hne
  · split
    next => rfl
    next => exact KeyedList.lookup_snoc_ne hne
  · split
    next => rfl
    next => exact KeyedList.lookup_snoc_ne hne
  · exact KeyedList.lookup_assign_ne hne

theorem add_throws_iff (hd : Represents d m) (k : Bytes) (v : Value) (x : DictException) :
    d.add k v = some (.error x) ↔
      x = alreadyContains ∧ KeyedList.has Hasher.hash m (Hasher.hash k) = true := by
  have hadd := add_spec hd k v
  split at hadd
  next hk => simp [hadd, hk, eq_comm]
  next hk =>
    obtain ⟨d', hrun, _⟩ := hadd
    simp [hrun, hk]

/-- String keys are kept apart exactly when their hashes differ. -/
theorem apart_iff {k₁ k₂ : Bytes} (run : Reachable d) :
    Apart d k₁ k₂ ↔ k₁.hash ≠ k₂.hash := by
  obtain ⟨m, hd⟩ := run.represents
  constructor
  · intro hap heq
    have hh : (Hasher.hash k₁ : Int) = Hasher.hash k₂ := hash_eq_iff.mpr heq
    by_cases hk : KeyedList.has Hasher.hash m (Hasher.hash k₁)
    · have hremove := remove_spec hd k₁
      rw [if_pos hk] at hremove
      obtain ⟨d', hrun, hd'⟩ := hremove
      have hkey := (hap (.remove k₁) (Or.inl rfl) d' hrun).1
      rw [hasKey_spec hd, hasKey_spec hd', ← hh, hk, ← KeyedList.lookup_isSome,
        KeyedList.lookup_erase_self] at hkey
      simp at hkey
    · have hadd := add_spec hd k₁ default
      rw [if_neg hk] at hadd
      obtain ⟨d', hrun, hd'⟩ := hadd
      have hkey := (hap (.add k₁ default) (Or.inr (Or.inr ⟨_, Or.inl rfl⟩)) d' hrun).1
      rw [Bool.not_eq_true] at hk
      rw [hasKey_spec hd, hasKey_spec hd', ← hh, hk, ← KeyedList.lookup_isSome,
        KeyedList.lookup_snoc_self hk] at hkey
      simp at hkey
  · intro hne op hop d' hrun
    have hh : (Hasher.hash k₂ : Int) ≠ Hasher.hash k₁ := fun h => hne (hash_eq_iff.mp h.symm)
    have valid : op.Valid d := by
      rcases hop with rfl | rfl | ⟨v, rfl | rfl⟩ <;> trivial
    obtain ⟨r, hr, _, hd'⟩ := hd.step valid
    cases Option.some.inj (hrun.symm.trans hr)
    have hd' : Represents d' (op.onBindings d m) := hd'
    have hl := lookup_onBindings (d := d) (m := m) hop hh
    have hhas : KeyedList.has Hasher.hash (op.onBindings d m) (Hasher.hash k₂) =
        KeyedList.has Hasher.hash m (Hasher.hash k₂) := by
      rw [← KeyedList.lookup_isSome, hl, KeyedList.lookup_isSome]
    refine ⟨?_, ?_, fun v x => ?_⟩
    · rw [hasKey_spec hd, hasKey_spec hd', hhas]
    · rw [get_spec hd, get_spec hd', hl]
    · rw [add_throws_iff hd, add_throws_iff hd', hhas]

theorem apart_iff_header :
    Apart (empty : Dictionary Bytes Nat) (bytes "Host") (bytes "Date") ↔
      (bytes "Host").hash ≠ (bytes "Date").hash :=
  apart_iff .empty

/-- Distinct keys that share their hash. -/
theorem not_apart_aB :
    ¬∀ d : Dictionary Bytes Nat, Reachable d → ∀ k₁ k₂ : Bytes, 0 ∉ k₁ → 0 ∉ k₂ → k₁ ≠ k₂ →
      Apart d k₁ k₂ := by
  intro h
  have hap := h empty .empty (bytes "aB") (bytes "ba") (by decide) (by decide) (by decide)
  have := (hap (.add (bytes "aB") 1) (Or.inr (Or.inr ⟨_, Or.inl rfl⟩)) _ rfl).1
  exact absurd this (by decide)

end Dictionary

end Srl
