import Srl.Lagged
import Srl.WordBits
import Mathlib.Data.UInt
import Mathlib.Logic.Function.Basic

namespace Srl

namespace Random

def M : Nat := 397

def N : Nat := 624

end Random

/-- The numbers at hand, the place of the next one, and how many are left. -/
structure Random where
  _values : Lagged.Window UInt32 Random.N
  _next : Nat
  _remaining : Int

namespace Random

def hiBit (u : UInt32) : UInt32 := u &&& 0x80000000

def loBit (u : UInt32) : UInt32 := u &&& 0x00000001

def loBits (u : UInt32) : UInt32 := u &&& 0x7fffffff

def mixBits (u v : UInt32) : UInt32 := hiBit u ||| loBits v

def twist (m s0 s1 : UInt32) : UInt32 := m ^^^ (mixBits s0 s1 >>> 1) ^^^ (-loBit s1 &&& 0x9908b0df)

/-- What is read `i` cells from the first one; none outside the vector. -/
def cell (values : Lagged.Window UInt32 N) (i : Int) : Option UInt32 := if i < 0 then none else values[i.toNat]?

/-- `count` rounds of `*p = twist(p[d], p[0], p[1])`, `++p`. -/
def twists (d : Int) : Nat → Nat → Lagged.Window UInt32 N → Option (Nat × Lagged.Window UInt32 N)
  | 0, p, values => some (p, values)
  | count + 1, p, values => do
    let m ← cell values (p + d)
    let s0 ← cell values p
    let s1 ← cell values (p + 1)
    twists d count (p + 1) (values.setIfInBounds p (twist m s0 s1))

def reload (r : Random) : Option Random := do
  let (p, values) ← twists M (N - M) 0 r._values
  let (p, values) ← twists (M - N) (M - 1) p values
  let m ← cell values (p + (M - N))
  let s0 ← cell values p
  let s1 ← cell values 0
  return { _values := values.setIfInBounds p (twist m s0 s1), _next := 0, _remaining := N }

/-- The rounds from `i` on of the loop of `initialize`, with its pointers `s` and `r`. -/
def seedLoop : Nat → Nat → Nat → Nat → Lagged.Window UInt32 N → Option (Lagged.Window UInt32 N)
  | 0, _, _, _, values => some values
  | count + 1, i, s, r, values => do
    let v ← cell values r
    seedLoop count (i + 1) (s + 1) (r + 1)
      (values.setIfInBounds s ((1812433253 : UInt32) * (v ^^^ (v >>> 30)) + UInt32.ofNat i))

def initializeSeed (r : Random) (seed : UInt32) : Option Random := do
  let values ← seedLoop (N - 1) 1 1 0 (r._values.setIfInBounds 0 seed)
  reload { r with _values := values }

def temper (s1 : UInt32) : UInt32 :=
  let s1 := s1 ^^^ (s1 >>> 11)
  let s1 := s1 ^^^ ((s1 <<< 7) &&& 0x9d2c5680)
  let s1 := s1 ^^^ ((s1 <<< 15) &&& 0xefc60000)
  s1 ^^^ (s1 >>> 18)

def randomInt (r : Random) : Option (UInt32 × Random) := do
  let r ← (if r._remaining = 0 then reload r else some r)
  let s1 ← cell r._values r._next
  return (temper s1, { r with _next := r._next + 1, _remaining := r._remaining - 1 })

/-- The bits that numbers up to `n` use. -/
def used (n : UInt32) : UInt32 :=
  let used := n ||| n >>> 1
  let used := used ||| used >>> 2
  let used := used ||| used >>> 4
  let used := used ||| used >>> 8
  used ||| used >>> 16

/-- The loop of `randomInt(n)`, of which `fuel` rounds are run at most. -/
def randomIntLoop (n used : UInt32) : Nat → Random → Option (UInt32 × Random)
  | 0, _ => none
  | fuel + 1, r => do
    let (i, r) ← randomInt r
    let i := i &&& used
    if i > n then randomIntLoop n used fuel r else some (i, r)

def randomIntTo (n : UInt32) (fuel : Nat) (r : Random) : Option (UInt32 × Random) :=
  randomIntLoop n (used n) fuel r

/-- `n` numbers in a row. -/
def draws : Nat → Random → Option (List UInt32 × Random)
  | 0, r => some ([], r)
  | n + 1, r => do
    let (i, r) ← randomInt r
    let (is, r) ← draws n r
    return (i :: is, r)

/-- The recurrence on paper. -/
def mt19937 : Lagged UInt32 where
  order := N
  lag := M
  step := twist
  lag_pos := by decide
  lag_lt := by decide

/-- What a seed is stretched to. -/
def seeded (seed : UInt32) : Nat → UInt32
  | 0 => seed
  | i + 1 => (1812433253 : UInt32) * (seeded seed i ^^^ (seeded seed i >>> 30)) + UInt32.ofNat (i + 1)

/-- The words that a generator with this seed tempers, the seed's own words first. -/
def words (seed : UInt32) : Nat → UInt32 := mt19937.term (seeded seed)

theorem cell_eq {values : Lagged.Window UInt32 N} {i : Int} {j : Nat} {v : UInt32} (hi : i = j)
    (h : values.toList[j]? = some v) :
    cell values i = some v := by
  subst hi
  rw [cell, if_neg (by omega), Int.toNat_natCast, ← Vector.getElem?_toList, h]

/-- A row of rounds whose reads are those of the recurrence renews as many cells. -/
theorem twists_renewed {x : Nat → UInt32} (hx : mt19937.Continues x) {d : Int} :
    ∀ (count p : Nat) (values : Lagged.Window UInt32 N), mt19937.Renewed x p values.toList → p + count < N →
      (∀ (q : Nat) (vs : Lagged.Window UInt32 N), p ≤ q → q < p + count → mt19937.Renewed x q vs.toList →
        cell vs (q + d) = some (x (q + M))) →
      ∃ values', twists d count p values = some (p + count, values') ∧
        mt19937.Renewed x (p + count) values'.toList := by
  intro count
  induction count with
  | zero =>
    intro p values h _ _
    exact ⟨values, rfl, h⟩
  | succ count ih =>
    intro p values h hp hm
    have hs0 : cell values p = some (x p) := cell_eq rfl (h.left p (Nat.le_refl p) (by show p < N; omega))
    have hs1 : cell values (p + 1) = some (x (p + 1)) := cell_eq rfl (h.after.1 (by show p + 1 < N; omega))
    have hset : mt19937.Renewed x (p + 1) (values.setIfInBounds p (twist (x (p + M)) (x p) (x (p + 1)))).toList := by
      rw [Lagged.toList_setIfInBounds]
      exact h.set hx (by show p < N; omega)
    obtain ⟨values', hrun, h'⟩ := ih (p + 1) _ hset (by omega) (fun q vs hq hlt => hm q vs (by omega) (by omega))
    rw [show p + 1 + count = p + (count + 1) by omega] at hrun h'
    refine ⟨values', ?_, h'⟩
    rw [twists, hm p values (Nat.le_refl p) (by omega) h, hs0, hs1]
    exact hrun

theorem reload_eq {r : Random} {p q : Nat} {values₁ values₂ : Lagged.Window UInt32 N} {m s0 s1 : UInt32}
    (h₁ : twists M (N - M) 0 r._values = some (p, values₁)) (h₂ : twists (M - N) (M - 1) p values₁ = some (q, values₂))
    (hm : cell values₂ (q + ((M : Int) - N)) = some m) (hs0 : cell values₂ q = some s0)
    (hs1 : cell values₂ 0 = some s1) :
    reload r = some { _values := values₂.setIfInBounds q (twist m s0 s1), _next := 0, _remaining := N } := by
  simp only [reload, h₁, h₂, hm, hs0, hs1, Option.bind_eq_bind, Option.bind_some]
  rfl

/-- Reloading renews every word. -/
theorem reload_renewed {x : Nat → UInt32} (hx : mt19937.Continues x) {r : Random}
    (h : mt19937.Renewed x 0 r._values.toList) :
    ∃ values, reload r = some { _values := values, _next := 0, _remaining := N } ∧
      mt19937.Renewed (fun k => x (N + k)) 0 values.toList := by
  obtain ⟨values₁, hrun₁, h₁⟩ := twists_renewed hx (N - M) 0 r._values h (by decide) (d := M) (by
    intro q vs _ hq hvs
    exact cell_eq (by simp only [mt19937]; omega) (hvs.lagged.1 (by show q + M < N; simp only [N, M] at hq ⊢; omega)))
  have hback : ∀ (q : Nat) (vs : Lagged.Window UInt32 N), N - M ≤ q → q < N → mt19937.Renewed x q vs.toList →
      cell vs (q + ((M : Int) - N)) = some (x (q + M)) := by
    intro q vs hq hlt hvs
    have hlagged := hvs.lagged.2 (by show N ≤ q + M; simp only [N, M] at hq ⊢; omega) hlt
    exact cell_eq (by simp only [mt19937, N, M] at hq ⊢; omega) hlagged
  obtain ⟨values₂, hrun₂, h₂⟩ := twists_renewed hx (M - 1) (0 + (N - M)) values₁ h₁ (by decide) (d := M - N) (by
    intro q vs hq hlt hvs
    exact hback q vs (by omega) (by simp only [N, M] at hlt ⊢; omega) hvs)
  rw [show 0 + (N - M) + (M - 1) = 623 by decide] at hrun₂ h₂
  have hs0 : cell values₂ (623 : Nat) = some (x 623) := cell_eq rfl (h₂.left 623 (Nat.le_refl _) (by decide))
  have hs1 : cell values₂ 0 = some (x 624) := cell_eq rfl (h₂.after.2 rfl (by decide))
  refine ⟨values₂.setIfInBounds 623 (twist (x (623 + M)) (x 623) (x 624)), ?_, ?_⟩
  · exact reload_eq hrun₁ hrun₂ (hback 623 values₂ (by decide) (by decide) h₂) hs0 hs1
  · rw [Lagged.toList_setIfInBounds]
    exact (h₂.set hx (by decide)).next

/-- The loop stretches the seed over the vector. -/
theorem seedLoop_seeded (seed : UInt32) : ∀ (count i : Nat) (values : Lagged.Window UInt32 N), i + 1 + count = N →
    (∀ j ≤ i, values.toList[j]? = some (seeded seed j)) →
    ∃ values', seedLoop count (i + 1) (i + 1) i values = some values' ∧
      ∀ j < N, values'.toList[j]? = some (seeded seed j) := by
  intro count
  induction count with
  | zero =>
    intro i values hi h
    exact ⟨values, rfl, fun j hj => h j (by omega)⟩
  | succ count ih =>
    intro i values hi h
    have hcell : cell values i = some (seeded seed i) := cell_eq rfl (h i (Nat.le_refl i))
    have hset : ∀ j ≤ i + 1, (values.setIfInBounds (i + 1) (seeded seed (i + 1))).toList[j]? =
        some (seeded seed j) := by
      intro j hj
      rw [Lagged.toList_setIfInBounds]
      by_cases hji : j = i + 1
      · subst hji
        rw [List.getElem?_set_self (by rw [Vector.length_toList]; omega)]
      · rw [List.getElem?_set_ne (by omega), h j (by omega)]
    obtain ⟨values', hrun, h'⟩ := ih (i + 1) _ (by omega) hset
    refine ⟨values', ?_, h'⟩
    rw [seedLoop, hcell]
    exact hrun

/-- The next number is computed from the word `k` of `x`. -/
def Follows (r : Random) (x : Nat → UInt32) (k : Nat) : Prop :=
  ∃ b, k = b + r._next ∧ r._next + r._remaining = N ∧ r._next ≤ N ∧
    mt19937.Renewed (fun j => x (b + j)) 0 r._values.toList

theorem initializeSeed_follows (r : Random) (seed : UInt32) :
    ∃ r', initializeSeed r seed = some r' ∧ Follows r' (words seed) N := by
  have hfirst : ∀ j ≤ 0, (r._values.setIfInBounds 0 seed).toList[j]? = some (seeded seed j) := by
    intro j hj
    obtain rfl : j = 0 := by omega
    rw [Lagged.toList_setIfInBounds, List.getElem?_set_self (by rw [Vector.length_toList]; decide), seeded]
  obtain ⟨values, hrun, h⟩ := seedLoop_seeded seed (N - 1) 0 _ (by decide) hfirst
  have hwords : mt19937.Renewed (words seed) 0 values.toList := by
    refine ⟨Vector.length_toList, by omega, ?_⟩
    intro j _ hj
    rw [h j hj, words, Lagged.term_lt hj]
  obtain ⟨values', hreload, h'⟩ := reload_renewed (mt19937.term_continues (seeded seed))
    (r := { r with _values := values }) hwords
  refine ⟨{ _values := values', _next := 0, _remaining := N }, ?_, N, rfl, rfl, Nat.zero_le N, h'⟩
  simp only [initializeSeed, hrun, Option.bind_eq_bind, Option.bind_some]
  exact hreload

/-- One call tempers one word and goes on to the next. -/
theorem randomInt_follows {r : Random} {x : Nat → UInt32} {k : Nat} (hx : mt19937.Continues x) (h : Follows r x k) :
    ∃ r', randomInt r = some (temper (x k), r') ∧ Follows r' x (k + 1) := by
  obtain ⟨b, hk, hsum, hle, hcells⟩ := h
  have hready : ∃ r₁ b₁, (if r._remaining = 0 then reload r else some r) = some r₁ ∧ k = b₁ + r₁._next ∧
      r₁._next + r₁._remaining = N ∧ r₁._next < N ∧ mt19937.Renewed (fun j => x (b₁ + j)) 0 r₁._values.toList := by
    by_cases hzero : r._remaining = 0
    · obtain ⟨values, hreload, h'⟩ := reload_renewed (Lagged.continues_shift hx b) hcells
      rw [if_pos hzero, hreload]
      refine ⟨_, b + N, rfl, ?_, rfl, (by decide : 0 < N), ?_⟩
      · show k = b + N + 0
        omega
      · simpa only [Nat.add_assoc] using h'
    · exact ⟨r, b, if_neg hzero, hk, hsum, by omega, hcells⟩
  obtain ⟨r₁, b₁, hif, hk₁, hsum₁, hlt₁, hcells₁⟩ := hready
  have hcell : cell r₁._values r₁._next = some (x k) := by
    rw [hk₁]
    exact cell_eq rfl (hcells₁.left _ (Nat.zero_le _) hlt₁)
  refine ⟨{ r₁ with _next := r₁._next + 1, _remaining := r₁._remaining - 1 }, ?_, b₁, ?_, ?_, hlt₁, hcells₁⟩
  · simp only [randomInt, hif, hcell, Option.bind_eq_bind, Option.bind_some]
    rfl
  · show k + 1 = b₁ + (r₁._next + 1)
    omega
  · show ((r₁._next + 1 : Nat) : Int) + (r₁._remaining - 1) = N
    omega

/-- A row of calls tempers a row of words. -/
theorem draws_follows {x : Nat → UInt32} (hx : mt19937.Continues x) (n : Nat) : ∀ {r : Random} {k : Nat},
    Follows r x k →
    ∃ r', draws n r = some ((List.range' k n).map fun j => temper (x j), r') ∧ Follows r' x (k + n) := by
  induction n with
  | zero =>
    intro r k h
    exact ⟨r, rfl, h⟩
  | succ n ih =>
    intro r k h
    obtain ⟨r₁, hone, h₁⟩ := randomInt_follows hx h
    obtain ⟨r', hrest, h'⟩ := ih h₁
    refine ⟨r', ?_, by rwa [show k + (n + 1) = k + 1 + n by omega]⟩
    rw [draws, hone]
    show (draws n r₁).bind _ = _
    rw [hrest]
    rfl

/-- A generator with a given seed yields, for ever, the tempered words of the recurrence; no draw reads outside the
vector. -/
theorem draws_initializeSeed (r : Random) (seed : UInt32) (n : Nat) : ∃ r₁ r₂, initializeSeed r seed = some r₁ ∧
    draws n r₁ = some ((List.range n).map fun k => temper (words seed (N + k)), r₂) := by
  obtain ⟨r₁, hinit, h₁⟩ := initializeSeed_follows r seed
  obtain ⟨r₂, hdraws, -⟩ := draws_follows (mt19937.term_continues (seeded seed)) n h₁
  refine ⟨r₁, r₂, hinit, ?_⟩
  rw [hdraws, List.range'_eq_map_range, List.map_map]
  rfl

theorem temper_injective : Function.Injective temper := by
  intro x y h
  apply UInt32.toBitVec_inj.mp
  have h18 := congrArg UInt32.toBitVec h
  have h15 := WordBits.xor_ushiftRight_injective (k := 18) (by decide) h18
  have h7 := WordBits.xor_shiftLeft_and_injective (k := 15) (by decide) h15
  have h11 := WordBits.xor_shiftLeft_and_injective (k := 7) (by decide) h7
  exact WordBits.xor_ushiftRight_injective (k := 11) (by decide) h11

/-- A generator that any calls have led to. -/
inductive Reached : Random → Prop where
  | start (r₀ : Random) (seed : UInt32) {r : Random} (h : initializeSeed r₀ seed = some r) : Reached r
  | drawn {r r' : Random} {i : UInt32} (h : Reached r) (hr : randomInt r = some (i, r')) : Reached r'
  | drawnTo {r r' : Random} {i : UInt32} (n : UInt32) (fuel : Nat) (h : Reached r)
      (hr : randomIntTo n fuel r = some (i, r')) : Reached r'

/-- The loop draws the numbers in their order and takes the first that fits. -/
theorem randomIntLoop_follows {x : Nat → UInt32} (hx : mt19937.Continues x) (n u : UInt32) (fuel : Nat) :
    ∀ {r : Random} {k : Nat}, Follows r x k →
      (∀ j < fuel, n < temper (x (k + j)) &&& u) ∧ randomIntLoop n u fuel r = none ∨
        ∃ j < fuel, (∀ j' < j, n < temper (x (k + j')) &&& u) ∧ temper (x (k + j)) &&& u ≤ n ∧
          ∃ r', randomIntLoop n u fuel r = some (temper (x (k + j)) &&& u, r') ∧
            draws (j + 1) r = some ((List.range' k (j + 1)).map fun l => temper (x l), r') ∧
              Follows r' x (k + j + 1) := by
  induction fuel with
  | zero =>
    intro r k _
    exact Or.inl ⟨by omega, rfl⟩
  | succ fuel ih =>
    intro r k h
    obtain ⟨r₁, hone, h₁⟩ := randomInt_follows hx h
    by_cases hgt : n < temper (x k) &&& u
    · have hstep : randomIntLoop n u (fuel + 1) r = randomIntLoop n u fuel r₁ := by
        simp only [randomIntLoop, hone, Option.bind_eq_bind, Option.bind_some]
        exact if_pos hgt
      have hbefore : ∀ j, (∀ j' < j, n < temper (x (k + 1 + j')) &&& u) →
          ∀ j' < j + 1, n < temper (x (k + j')) &&& u := by
        intro j hj j' hlt
        cases j' with
        | zero => exact hgt
        | succ j' =>
          have := hj j' (by omega)
          rwa [show k + 1 + j' = k + (j' + 1) by omega] at this
      rw [hstep]
      obtain ⟨hall, hnone⟩ | ⟨j, hj, hall, hfits, r', hrun, hdraws, h'⟩ := ih h₁
      · exact Or.inl ⟨hbefore fuel hall, hnone⟩
      · rw [show k + 1 + j = k + (j + 1) by omega] at hfits hrun h'
        refine Or.inr ⟨j + 1, by omega, hbefore j hall, hfits, r', hrun, ?_, h'⟩
        rw [draws, hone]
        show (draws (j + 1) r₁).bind _ = _
        rw [hdraws]
        rfl
    · refine Or.inr ⟨0, by omega, by omega, UInt32.not_lt.mp hgt, r₁, ?_, by rw [draws, hone]; rfl, h₁⟩
      simp only [randomIntLoop, hone, Option.bind_eq_bind, Option.bind_some]
      exact if_neg hgt

/-- Every generator goes through the words of some sequence of the recurrence. -/
theorem Reached.follows {r : Random} (h : Reached r) : ∃ x k, mt19937.Continues x ∧ Follows r x k := by
  induction h with
  | start r₀ seed h =>
    obtain ⟨r', hinit, h'⟩ := initializeSeed_follows r₀ seed
    obtain rfl : r' = _ := Option.some.inj (hinit.symm.trans h)
    exact ⟨words seed, N, mt19937.term_continues (seeded seed), h'⟩
  | drawn _ hr ih =>
    obtain ⟨x, k, hx, hf⟩ := ih
    obtain ⟨r', hrun, h'⟩ := randomInt_follows hx hf
    obtain ⟨-, rfl⟩ := Prod.mk.inj (Option.some.inj (hrun.symm.trans hr))
    exact ⟨x, k + 1, hx, h'⟩
  | drawnTo n fuel _ hr ih =>
    obtain ⟨x, k, hx, hf⟩ := ih
    obtain ⟨-, hnone⟩ | ⟨j, -, -, -, r', hrun, -, h'⟩ := randomIntLoop_follows hx n (used n) fuel hf
    · rw [randomIntTo, hnone] at hr
      cases hr
    · obtain ⟨-, rfl⟩ := Prod.mk.inj (Option.some.inj (hrun.symm.trans hr))
      exact ⟨x, k + j + 1, hx, h'⟩

/-- `N` numbers in a row give a generator away: two that agree on them agree on every later one. -/
theorem draws_determine {r s r' s' : Random} {is : List UInt32} (hr : Reached r) (hs : Reached s)
    (hrs : draws N r = some (is, r')) (hss : draws N s = some (is, s')) (n : Nat) :
    (draws n r').map Prod.fst = (draws n s').map Prod.fst := by
  obtain ⟨x, k, hx, hfr⟩ := hr.follows
  obtain ⟨y, l, hy, hfs⟩ := hs.follows
  obtain ⟨r₁, hrun₁, h₁⟩ := draws_follows hx N hfr
  obtain ⟨s₁, hrun₂, h₂⟩ := draws_follows hy N hfs
  obtain ⟨hxs, rfl⟩ := Prod.mk.inj (Option.some.inj (hrun₁.symm.trans hrs))
  obtain ⟨hys, rfl⟩ := Prod.mk.inj (Option.some.inj (hrun₂.symm.trans hss))
  have hwindow : ∀ j < N, x (k + j) = y (l + j) := by
    intro j hj
    have hget := congrArg (fun zs : List UInt32 => zs[j]?) (hxs.trans hys.symm)
    simp only [List.getElem?_map, List.getElem?_range' hj, Option.map_some, Option.some.injEq, Nat.one_mul] at hget
    exact temper_injective hget
  have hsame := Lagged.continues_unique (Lagged.continues_shift hx k) (Lagged.continues_shift hy l) hwindow
  obtain ⟨r₂, hrun₃, -⟩ := draws_follows hx n h₁
  obtain ⟨s₂, hrun₄, -⟩ := draws_follows hy n h₂
  rw [hrun₃, hrun₄, Option.map_some, Option.map_some, List.range'_eq_map_range, List.range'_eq_map_range, List.map_map,
    List.map_map]
  congr 1
  apply List.map_congr_left
  intro j _
  show temper (x (k + N + j)) = temper (y (l + N + j))
  rw [Nat.add_assoc, Nat.add_assoc]
  exact congrArg temper (hsame (N + j))

/-- What the vector held before does not show in the numbers of a seed. -/
theorem draws_determine_seeds : ∃ r s r' s' is, initializeSeed ⟨Vector.replicate N 0, 0, 0⟩ 5489 = some r ∧
    initializeSeed ⟨Vector.replicate N 7, 0, 0⟩ 5489 = some s ∧ draws N r = some (is, r') ∧ draws N s = some (is, s') ∧
      (draws 1000 r').map Prod.fst = (draws 1000 s').map Prod.fst := by
  have hwords := mt19937.term_continues (seeded 5489)
  obtain ⟨r, hr, hfr⟩ := initializeSeed_follows ⟨Vector.replicate N 0, 0, 0⟩ 5489
  obtain ⟨s, hs, hfs⟩ := initializeSeed_follows ⟨Vector.replicate N 7, 0, 0⟩ 5489
  obtain ⟨r', hrs, -⟩ := draws_follows hwords N hfr
  obtain ⟨s', hss, -⟩ := draws_follows hwords N hfs
  exact ⟨r, s, r', s', _, hr, hs, hrs, hss, draws_determine (.start _ _ hr) (.start _ _ hs) hrs hss 1000⟩

theorem used_toNat (n : UInt32) : (used n).toNat = 2 ^ n.toNat.size - 1 := by
  have h := ((((WordBits.spread_one n.toBitVec).double).double).double).double.double
  exact h.toNat (by decide)

/-- What the mask leaves of a number. -/
theorem and_used (i n : UInt32) : (i &&& used n).toNat = i.toNat % 2 ^ n.toNat.size := by
  rw [UInt32.toNat_and, used_toNat, Nat.and_two_pow_sub_one_eq_mod]

/-- `randomInt(n)` is the first draw whose bits in use make a number up to `n`, and nothing is drawn after it; out of
`fuel` draws it fails to return only when none of them fits. -/
theorem randomIntTo_first {r : Random} (hr : Reached r) (n : UInt32) (fuel : Nat) :
    (randomIntTo n fuel r = none ∧
      ∃ is r', draws fuel r = some (is, r') ∧ ∀ i ∈ is, n.toNat < i.toNat % 2 ^ n.toNat.size) ∨
    ∃ is i v r', is.length < fuel ∧ draws (is.length + 1) r = some (is ++ [i], r') ∧
      (∀ j ∈ is, n.toNat < j.toNat % 2 ^ n.toNat.size) ∧ v ≤ n ∧ v.toNat = i.toNat % 2 ^ n.toNat.size ∧
      randomIntTo n fuel r = some (v, r') := by
  obtain ⟨x, k, hx, hf⟩ := hr.follows
  have hmiss : ∀ m, (∀ j < m, n < temper (x (k + j)) &&& used n) →
      ∀ i ∈ (List.range' k m).map fun j => temper (x j), n.toNat < i.toNat % 2 ^ n.toNat.size := by
    intro m hm i hi
    obtain ⟨j, hj, rfl⟩ := List.mem_map.mp hi
    obtain ⟨d, hd, rfl⟩ := List.mem_range'.mp hj
    rw [← and_used, ← UInt32.lt_iff_toNat_lt, Nat.one_mul]
    exact hm d hd
  obtain ⟨hall, hnone⟩ | ⟨j, hj, hall, hfits, r', hrun, hdraws, -⟩ := randomIntLoop_follows hx n (used n) fuel hf
  · obtain ⟨r', hdraws, -⟩ := draws_follows hx fuel hf
    exact Or.inl ⟨hnone, _, r', hdraws, hmiss fuel hall⟩
  · refine Or.inr ⟨(List.range' k j).map fun j => temper (x j), temper (x (k + j)), temper (x (k + j)) &&& used n, r',
      ?_, ?_, hmiss j hall, hfits, and_used _ _, hrun⟩
    · rw [List.length_map, List.length_range']
      exact hj
    · rw [List.length_map, List.length_range', hdraws, List.range'_1_concat, List.map_append]
      rfl

theorem randomIntTo_first_five : ∃ r, initializeSeed ⟨Vector.replicate N 0, 0, 0⟩ 5489 = some r ∧
    ((randomIntTo 5 10 r = none ∧
      ∃ is r', draws 10 r = some (is, r') ∧ ∀ i ∈ is, (5 : UInt32).toNat < i.toNat % 2 ^ (5 : UInt32).toNat.size) ∨
    ∃ is i v r', is.length < 10 ∧ draws (is.length + 1) r = some (is ++ [i], r') ∧
      (∀ j ∈ is, (5 : UInt32).toNat < j.toNat % 2 ^ (5 : UInt32).toNat.size) ∧ v ≤ 5 ∧
      v.toNat = i.toNat % 2 ^ (5 : UInt32).toNat.size ∧ randomIntTo 5 10 r = some (v, r')) := by
  obtain ⟨r, hr, -⟩ := initializeSeed_follows ⟨Vector.replicate N 0, 0, 0⟩ 5489
  exact ⟨r, hr, randomIntTo_first (.start _ _ hr) 5 10⟩

end Random

end Srl
