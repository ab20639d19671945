import Mathlib.Order.Lattice

namespace Comparisons

variable {α κ : Type}

/-- Six relations that are written as comparisons. -/
structure Operators (α : Type) where
  eq : α → α → Prop
  ne : α → α → Prop
  lt : α → α → Prop
  le : α → α → Prop
  gt : α → α → Prop
  ge : α → α → Prop

/-- What a total order asks of them, for `a`, `b` and `c`. -/
structure Lawful (o : Operators α) (a b c : α) : Prop where
  one : o.lt a b ∧ ¬o.eq a b ∧ ¬o.gt a b ∨ ¬o.lt a b ∧ o.eq a b ∧ ¬o.gt a b ∨ ¬o.lt a b ∧ ¬o.eq a b ∧ o.gt a b
  ne_iff : o.ne a b ↔ ¬o.eq a b
  le_iff : o.le a b ↔ o.lt a b ∨ o.eq a b
  ge_iff : o.ge a b ↔ o.gt a b ∨ o.eq a b
  lt_trans : o.lt a b → o.lt b c → o.lt a c

variable [LinearOrder κ]

/-- The orderings of `a` and `b` go by their keys. -/
structure ByKey (o : Operators α) (key : α → κ) (a b : α) : Prop where
  lt_iff : o.lt a b ↔ key a < key b
  le_iff : o.le a b ↔ key a ≤ key b
  gt_iff : o.gt a b ↔ key b < key a
  ge_iff : o.ge a b ↔ key b ≤ key a

variable {o : Operators α} {key : α → κ} {a b c : α}

/-- Comparisons by a key are lawful just if equality goes by the key, too. -/
theorem ByKey.lawful_iff (h : ByKey o key a b) (hne : o.ne a b ↔ ¬o.eq a b)
    (htrans : o.lt a b → o.lt b c → o.lt a c) : Lawful o a b c ↔ (o.eq a b ↔ key a = key b) := by
  constructor
  · intro hlaws
    have hone := hlaws.one
    rw [h.lt_iff, h.gt_iff] at hone
    rcases hone with ⟨hlt, hne, -⟩ | ⟨hlt, heq, hgt⟩ | ⟨-, hne, hgt⟩
    · exact ⟨fun heq => absurd heq hne, fun hkey => absurd hkey hlt.ne⟩
    · exact ⟨fun _ => le_antisymm (not_lt.mp hgt) (not_lt.mp hlt), fun _ => heq⟩
    · exact ⟨fun heq => absurd heq hne, fun hkey => absurd hkey hgt.ne'⟩
  · intro heq
    refine ⟨?_, hne, ?_, ?_, htrans⟩
    · rw [h.lt_iff, h.gt_iff, heq]
      rcases lt_trichotomy (key a) (key b) with hlt | hkey | hgt
      · exact .inl ⟨hlt, hlt.ne, hlt.not_gt⟩
      · exact .inr (.inl ⟨hkey.not_lt, hkey, hkey.not_gt⟩)
      · exact .inr (.inr ⟨hgt.not_gt, hgt.ne', hgt⟩)
    · rw [h.le_iff, h.lt_iff, heq]
      exact le_iff_lt_or_eq
    · rw [h.ge_iff, h.gt_iff, heq]
      exact le_iff_lt_or_eq.trans (or_congr_right eq_comm)

end Comparisons
