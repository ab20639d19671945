import Srl.Comparisons
import Srl.DateTime

namespace Srl

/-- What the comparisons of `DateTime` look at: `getTime()` and `julian()`. The seconds may be of any
type that is in order, as those of a `float64` that is a number. -/
structure Instant (κ : Type) where
  time : κ
  julian : Int

def DateTime.instant (dt : DateTime) : Instant Int := ⟨dt.time, dt.julian⟩

namespace Instant

variable {κ : Type} {a b c : Instant κ}

/-- The operators: each compares the seconds, and asks for the same day. -/
def sameDay (p : κ → κ → Bool) (dt1 dt2 : Instant κ) : Bool := p dt1.time dt2.time && dt1.julian == dt2.julian

theorem sameDay_iff {p : κ → κ → Bool} : sameDay p a b = true ↔ p a.time b.time = true ∧ a.julian = b.julian := by
  rw [sameDay, Bool.and_eq_true, beq_iff_eq]

variable [LinearOrder κ]

/-- `operator==`. -/
def equal : Instant κ → Instant κ → Bool := sameDay fun t₁ t₂ => t₁ = t₂

/-- `operator!=`. -/
def notEqual : Instant κ → Instant κ → Bool := sameDay fun t₁ t₂ => t₁ ≠ t₂

/-- `operator<`. -/
def less : Instant κ → Instant κ → Bool := sameDay fun t₁ t₂ => t₁ < t₂

/-- `operator<=`. -/
def lessEqual : Instant κ → Instant κ → Bool := sameDay fun t₁ t₂ => t₁ ≤ t₂

/-- `operator>`. -/
def greater : Instant κ → Instant κ → Bool := sameDay fun t₁ t₂ => t₁ > t₂

/-- `operator>=`. -/
def greaterEqual : Instant κ → Instant κ → Bool := sameDay fun t₁ t₂ => t₁ ≥ t₂

/-- The operators as relations. -/
def comparisons : Comparisons.Operators (Instant κ) where
  eq dt1 dt2 := equal dt1 dt2 = true
  ne dt1 dt2 := notEqual dt1 dt2 = true
  lt dt1 dt2 := less dt1 dt2 = true
  le dt1 dt2 := lessEqual dt1 dt2 = true
  gt dt1 dt2 := greater dt1 dt2 = true
  ge dt1 dt2 := greaterEqual dt1 dt2 = true

/-- The order of the instants: by the day first. -/
def Before (dt1 dt2 : Instant κ) : Prop := dt1.julian < dt2.julian ∨ dt1.julian = dt2.julian ∧ dt1.time < dt2.time

theorem byKey (h : a.julian = b.julian) : Comparisons.ByKey comparisons time a b := by
  have hop : ∀ {p : κ → κ → Bool}, sameDay p a b = true ↔ p a.time b.time = true := fun {p} =>
    sameDay_iff.trans (and_iff_left h)
  exact ⟨hop.trans decide_eq_true_iff, hop.trans decide_eq_true_iff, hop.trans decide_eq_true_iff,
    hop.trans decide_eq_true_iff⟩

theorem less_trans (h : comparisons.lt a b) (h' : comparisons.lt b c) : comparisons.lt a c := by
  obtain ⟨htime, hjulian⟩ := sameDay_iff.mp h
  obtain ⟨htime', hjulian'⟩ := sameDay_iff.mp h'
  exact sameDay_iff.mpr ⟨decide_eq_true ((of_decide_eq_true htime).trans (of_decide_eq_true htime')),
    hjulian.trans hjulian'⟩

/-- The comparisons are those of the order of instants just if `a` and `b` are of one day. -/
theorem comparisons_lawful_iff_julian :
    Comparisons.Lawful comparisons a b c ∧ (comparisons.lt a b ↔ Before a b) ↔ a.julian = b.julian := by
  constructor
  · rintro ⟨hlaws, -⟩
    rcases hlaws.one with ⟨hlt, -⟩ | ⟨-, heq, -⟩ | ⟨-, -, hgt⟩
    · exact (sameDay_iff.mp hlt).2
    · exact (sameDay_iff.mp heq).2
    · exact (sameDay_iff.mp hgt).2
  · intro hday
    have hkey := byKey hday
    have heq : comparisons.eq a b ↔ a.time = b.time :=
      (sameDay_iff.trans (and_iff_left hday)).trans decide_eq_true_iff
    have hne : comparisons.ne a b ↔ ¬comparisons.eq a b :=
      (sameDay_iff.trans (and_iff_left hday)).trans (decide_eq_true_iff.trans (not_congr heq.symm))
    refine ⟨(hkey.lawful_iff hne less_trans).mpr heq, hkey.lt_iff.trans ?_⟩
    rw [Before, hday]
    exact ⟨fun htime => .inr ⟨rfl, htime⟩, fun h => (h.resolve_left (Int.lt_irrefl _)).2⟩

/-- Two midnights are not in order. -/
theorem not_comparisons_lawful_julian : ¬∀ a b c : DateTime,
    Comparisons.Lawful comparisons a.instant b.instant c.instant ∧
      (comparisons.lt a.instant b.instant ↔ Before a.instant b.instant) := by
  intro hall
  exact absurd (comparisons_lawful_iff_julian.mp
    (hall ⟨⟨1, 1, 2000, 2451545⟩, 0⟩ ⟨⟨2, 1, 2000, 2451546⟩, 0⟩ ⟨⟨3, 1, 2000, 2451547⟩, 0⟩)) (by decide)

end Instant

end Srl
