import Srl.Comparisons
import Srl.StrCut
import Srl.StrHash

namespace Srl

open Cells Session

namespace Str

/-- The loop of `Compare`, from position `i` of both texts on. -/
def compareLoop (ignore_case : Bool) (s₁ s₂ : Str) : Nat → Nat → Except Stop Bool
  | 0, _ => .error .unfinished
  | fuel + 1, i => do
    let c₁ ← (read i s₁).1
    let c₂ ← (read i s₂).1
    let c₁ := if ignore_case then toupper c₁ else c₁
    let c₂ := if ignore_case then toupper c₂ else c₂
    if c₁ ≠ 0 ∧ c₁ = c₂ then compareLoop ignore_case s₁ s₂ fuel (i + 1) else pure (c₁ = c₂)

/-- `String::Compare` of `s₁.text()` and `s₂.text()`. -/
def compare (s₁ s₂ : Str) (ignore_case : Bool) : Except Stop Bool :=
  compareLoop ignore_case s₁ s₂ (s₁.memory.length + 1) 0

/-- `operator==`. -/
def equal (s₁ s₂ : Str) : Except Stop Bool := compare s₁ s₂ false

/-- `operator!=`. -/
def notEqual (s₁ s₂ : Str) : Except Stop Bool := do pure !(← compare s₁ s₂ false)

/-- The operators that look at the hashes only. -/
def byHash (p : UInt32 → UInt32 → Bool) (s₁ s₂ : Str) : Except Stop Bool := do
  let h₁ ← (hash s₁).1
  let h₂ ← (hash s₂).1
  pure (p h₁ h₂)

/-- `operator>`. -/
def greater : Str → Str → Except Stop Bool := byHash fun h₁ h₂ => h₁ > h₂

/-- `operator<`. -/
def less : Str → Str → Except Stop Bool := byHash fun h₁ h₂ => h₁ < h₂

/-- `operator>=`. -/
def greaterEqual : Str → Str → Except Stop Bool := byHash fun h₁ h₂ => h₁ ≥ h₂

/-- `operator<=`. -/
def lessEqual : Str → Str → Except Stop Bool := byHash fun h₁ h₂ => h₁ ≤ h₂

/-- The operators as relations: that they answer `true`. -/
def comparisons : Comparisons.Operators Str where
  eq s₁ s₂ := equal s₁ s₂ = .ok true
  ne s₁ s₂ := notEqual s₁ s₂ = .ok true
  lt s₁ s₂ := less s₁ s₂ = .ok true
  le s₁ s₂ := lessEqual s₁ s₂ = .ok true
  gt s₁ s₂ := greater s₁ s₂ = .ok true
  ge s₁ s₂ := greaterEqual s₁ s₂ = .ok true

/-- The value that `hash()` has: a cached one is not computed again. -/
def hashed (s : Str) : UInt32 := if s.hash_value ≠ 0 then s.hash_value else s.content.hash

variable {s t u : Str} {l m k : Bytes} {i : Nat}

theorem Shows.hash_eq (h : Shows s l) : (hash s).1 = .ok s.hashed := by
  have hlt := h.length_lt
  unfold hash hashed
  rw [get_bind]
  split
  next => rfl
  next =>
    rw [if_neg (by rw [h.length_eq]; omega)]
    rfl

theorem cstr_drop (hi : i ≤ l.length) :
    Bytes.cstr (l.drop i) = if l.charAt i = 0 then [] else l.charAt i :: Bytes.cstr (l.drop (i + 1)) := by
  obtain hlt | rfl := Nat.lt_or_eq_of_le hi
  · rw [List.drop_eq_getElem_cons hlt, Bytes.cstr_cons, Bytes.charAt_of_lt hlt]
  · rw [List.drop_length, Bytes.charAt_length, if_pos rfl]
    rfl

theorem lt_of_charAt_ne (hi : i ≤ l.length) (hne : l.charAt i ≠ 0) : i < l.length := by
  obtain hlt | rfl := Nat.lt_or_eq_of_le hi
  · exact hlt
  · exact absurd (Bytes.charAt_length l) hne

theorem Shows.compareLoop_eq (h : Shows s l) (h' : Shows t m) {fuel : Nat} (hi : i ≤ l.length) (hi' : i ≤ m.length)
    (hfuel : l.length - i < fuel) : compareLoop false s t fuel i = .ok (Bytes.same (l.drop i) (m.drop i)) := by
  induction fuel generalizing i with
  | zero => omega
  | succ fuel ih =>
    have hround : compareLoop false s t (fuel + 1) i =
        if l.charAt i ≠ 0 ∧ l.charAt i = m.charAt i then compareLoop false s t fuel (i + 1)
        else .ok (decide (l.charAt i = m.charAt i)) := by
      rw [compareLoop, h.read_eq hi, h'.read_eq hi']
      rfl
    rw [hround, Bytes.same, cstr_drop hi, cstr_drop hi']
    by_cases hzero : l.charAt i = 0
    · rw [if_neg fun hgo => hgo.1 hzero, if_pos hzero, hzero]
      by_cases hzero' : m.charAt i = 0
      · rw [if_pos hzero', hzero']
        rfl
      · rw [if_neg hzero', decide_eq_false (Ne.symm hzero'), decide_eq_false (List.cons_ne_nil _ _).symm]
    · by_cases hsame : l.charAt i = m.charAt i
      · have hlt := lt_of_charAt_ne hi hzero
        have hlt' := lt_of_charAt_ne hi' (hsame ▸ hzero)
        rw [if_pos ⟨hzero, hsame⟩, ih hlt hlt' (by omega), if_neg hzero, if_neg (hsame ▸ hzero), hsame]
        exact congrArg Except.ok (decide_eq_decide.mpr ⟨congrArg _, fun heq => (List.cons.inj heq).2⟩)
      · rw [if_neg fun hgo => hsame hgo.2, if_neg hzero, decide_eq_false hsame]
        split
        next => rw [decide_eq_false (List.cons_ne_nil _ _)]
        next => rw [decide_eq_false fun heq => hsame (List.cons.inj heq).1]

theorem Shows.compare_eq (h : Shows s l) (h' : Shows t m) : compare s t false = .ok (Bytes.same l m) :=
  h.compareLoop_eq h' (Nat.zero_le _) (Nat.zero_le _) (Nat.lt_succ_of_lt h.length_lt)

theorem Shows.equal_iff (h : Shows s l) (h' : Shows t m) (hl : ∀ c ∈ l, c ≠ 0) (hm : ∀ c ∈ m, c ≠ 0) :
    comparisons.eq s t ↔ l = m := by
  show compare s t false = .ok true ↔ l = m
  rw [h.compare_eq h', Bytes.same, Bytes.cstr_of_ne hl, Bytes.cstr_of_ne hm, Except.ok.injEq, decide_eq_true_eq]

theorem Shows.notEqual_iff (h : Shows s l) (h' : Shows t m) : comparisons.ne s t ↔ ¬comparisons.eq s t := by
  show (do pure !(← compare s t false)) = .ok true ↔ ¬compare s t false = .ok true
  rw [h.compare_eq h']
  cases Bytes.same l m <;> decide

theorem Shows.byHash_eq (h : Shows s l) (h' : Shows t m) (p : UInt32 → UInt32 → Bool) :
    byHash p s t = .ok (p s.hashed t.hashed) := by
  rw [byHash, h.hash_eq, h'.hash_eq]
  rfl

theorem Shows.byKey (h : Shows s l) (h' : Shows t m) : Comparisons.ByKey comparisons (fun s => s.hashed.toNat) s t := by
  have hop : ∀ {p : UInt32 → UInt32 → Bool}, byHash p s t = .ok true ↔ p s.hashed t.hashed = true := by
    intro p
    rw [h.byHash_eq h', Except.ok.injEq]
  refine ⟨hop.trans ?_, hop.trans ?_, hop.trans ?_, hop.trans ?_⟩
  · exact decide_eq_true_iff.trans UInt32.lt_iff_toNat_lt
  · exact decide_eq_true_iff.trans UInt32.le_iff_toNat_le
  · exact decide_eq_true_iff.trans UInt32.lt_iff_toNat_lt
  · exact decide_eq_true_iff.trans UInt32.le_iff_toNat_le

/-- The operators are those of a total order just if the hashes tell the two texts apart. -/
theorem comparisons_lawful_iff (h : Stores s l) (h' : Stores t m) (h'' : Stores u k) (hl : ∀ c ∈ l, c ≠ 0)
    (hm : ∀ c ∈ m, c ≠ 0) : Comparisons.Lawful comparisons s t u ↔ (s.hashed = t.hashed ↔ l = m) := by
  have hs := h.toHolds.shows
  have ht := h'.toHolds.shows
  have hu := h''.toHolds.shows
  have htrans : comparisons.lt s t → comparisons.lt t u → comparisons.lt s u := by
    rw [(hs.byKey ht).lt_iff, (ht.byKey hu).lt_iff, (hs.byKey hu).lt_iff]
    exact Nat.lt_trans
  rw [(hs.byKey ht).lawful_iff (hs.notEqual_iff ht) htrans, hs.equal_iff ht hl hm, UInt32.toNat_inj]
  exact Iff.comm

theorem comparisons_lawful_iff_abc : ∃ s t u, Stores s (bytes "a") ∧ Stores t (bytes "b") ∧ Stores u (bytes "c") ∧
    Comparisons.Lawful comparisons s t u := by
  obtain ⟨s, hs, h⟩ := create_copy (fun _ => 7) empty (by decide : (bytes "a").length + 16 < 2 ^ 32)
  obtain ⟨t, ht, h'⟩ := create_copy (fun _ => 7) empty (by decide : (bytes "b").length + 16 < 2 ^ 32)
  obtain ⟨u, -, h''⟩ := create_copy (fun _ => 7) empty (by decide : (bytes "c").length + 16 < 2 ^ 32)
  cases hs
  cases ht
  exact ⟨_, _, u, h, h', h'', (comparisons_lawful_iff h h' h'' (by decide) (by decide)).mpr (by decide)⟩

/-- Texts that share their hash are neither equal nor in order. -/
theorem not_comparisons_lawful : ¬∀ (s t u : Str) (l m k : Bytes), Stores s l → Stores t m → Stores u k →
    (∀ c ∈ l, c ≠ 0) → (∀ c ∈ m, c ≠ 0) → (∀ c ∈ k, c ≠ 0) → Comparisons.Lawful comparisons s t u := by
  intro hall
  obtain ⟨s, hs, h⟩ := create_copy (fun _ => 7) empty (by decide : (bytes "aB").length + 16 < 2 ^ 32)
  obtain ⟨t, ht, h'⟩ := create_copy (fun _ => 7) empty (by decide : (bytes "ba").length + 16 < 2 ^ 32)
  have hlaws := hall s t s _ _ _ h h' h (by decide) (by decide) (by decide)
  cases hs
  cases ht
  exact absurd ((comparisons_lawful_iff h h' h (by decide) (by decide)).mp hlaws) (by decide)

end Str

end Srl
