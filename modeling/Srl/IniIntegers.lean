import Srl.Numerals
import Srl.IniValues

namespace Srl

open Bytes KeyedList Dictionary

namespace Bytes

/-- `isDigits`, for which a dot is a digit and a sign is not. -/
def isDigits (t : Bytes) : Bool := t ≠ [] ∧ ∀ c ∈ t, 48 ≤ c ∧ c ≤ 57 ∨ c = 46

theorem isDigit_ten_iff {c : UInt8} : IsDigit 10 c ↔ 48 ≤ c ∧ c ≤ 57 := by
  refine ⟨fun h => ?_, isDigit_ten⟩
  obtain ⟨n, hn, hdigit⟩ := h
  by_contra hletter
  rw [digit, if_neg hletter] at hdigit
  simp only [UInt8.le_iff_toNat_le, UInt8.reduceToNat] at hdigit
  grind

/-- The text of a number is one of digits exactly if the number has no sign. -/
theorem isDigits_val (v : Int32) : isDigits (val v 10) = true ↔ 0 ≤ v := by
  obtain ⟨ds, hne, hds, -, hval⟩ := val_spec 10 (by decide) v
  rw [hval, isDigits, decide_eq_true_iff]
  split
  next hneg =>
    refine ⟨fun h => ?_, fun h => absurd hneg (Int32.not_lt.mpr h)⟩
    exact absurd (h.2 45 List.mem_cons_self) (by decide)
  next hpos =>
    exact ⟨fun _ => Int32.not_lt.mp hpos, fun _ => ⟨hne, fun c hc => .inl (isDigit_ten_iff.mp (hds c hc).1)⟩⟩

end Bytes

namespace IniParser

/-- `Section::putInteger`. -/
def putInteger (p : IniParser) (s : Ptr) (name : Bytes) (value : Int32) : Option IniParser :=
  p.putString s name (val value 10)

/-- `Section::getInteger`, which puts a default for a property that is not of digits, too. -/
def getInteger (p : IniParser) (s : Ptr) (name : Bytes) (default_value : Int32) : Option (Int32 × IniParser) := do
  let sec ← p.heap s
  let has ← sec.properties.hasKey name
  let tested ←
    if has then (valueAt sec.properties name).map (Prod.map isDigits id) else some (false, sec.properties)
  let properties ← if tested.1 then some tested.2 else tested.2.assign name (val default_value 10)
  let found ← valueAt properties name
  some (found.1.int 10, { p with heap := Function.update p.heap s (some { sec with properties := found.2 }) })

/-- The answers of `n` calls of `getInteger`. -/
def getIntegers (p : IniParser) (s : Ptr) (name : Bytes) (default_value : Int32) :
    Nat → Option (List Int32 × IniParser)
  | 0 => some ([], p)
  | n + 1 => do
    let (v, p) ← p.getInteger s name default_value
    let (vs, p) ← p.getIntegers s name default_value n
    some (v :: vs, p)

/-- The section at `s` has the text `t` for a key. -/
def Stores (p : IniParser) (s : Ptr) (k t : Bytes) : Prop :=
  ∃ m c n, Sections p m c ∧ (n, s) ∈ m ∧ lookup Hasher.hash (c s) (Hasher.hash k) = some t

variable {p : IniParser} {s : Ptr} {x : Contents × Int} {k t : Bytes} {v d : Int32} {n : Nat}

theorem putString_stores (hs : HoldsAt p s x) : ∃ p', p.putString s k t = some p' ∧ Stores p' s k t := by
  obtain ⟨m, c, n, hsections, hmem, -⟩ := hs
  obtain ⟨sec, hheap, -, hd⟩ := hsections.live _ hmem
  obtain ⟨properties, hassign, hproperties⟩ := assign_spec hd k t
  refine ⟨_, ?_, m, _, n, hsections.update hmem hheap hproperties, hmem, ?_⟩
  · rw [putString, hheap]
    dsimp only [Option.bind_eq_bind, Option.bind_some]
    rw [hassign]
    rfl
  · rw [Function.update_self, lookup_assign_self]

theorem getString_stores (hs : Stores p s k t) (default_value : Bytes) :
    ∃ p', p.getString s k default_value = some (t, p') := by
  obtain ⟨m, c, n, hsections, hmem, hlookup⟩ := hs
  obtain ⟨sec, hheap, -, hd⟩ := hsections.live _ hmem
  exact ⟨_, getString_found hheap hd hlookup default_value⟩

/-- A text of digits stays, and any other one gives way to the default. -/
theorem getInteger_stores (hs : Stores p s k t) (d : Int32) :
    ∃ p', p.getInteger s k d = some (if t.isDigits then t.int 10 else d, p') ∧
      Stores p' s k (if t.isDigits then t else val d 10) := by
  obtain ⟨m, c, n, hsections, hmem, hlookup⟩ := hs
  obtain ⟨sec, hheap, -, hd⟩ := hsections.live _ hmem
  have hhas : has Hasher.hash (c s) (Hasher.hash k) = true := by rw [← lookup_isSome, hlookup]; rfl
  have hkey := hasKey_spec hd k
  rw [hhas] at hkey
  cases hdigits : t.isDigits with
  | true =>
    refine ⟨_, ?_, m, _, n, hsections.update hmem hheap hd, hmem, ?_⟩
    · simp only [getInteger, hheap, hkey, Option.bind_eq_bind, Option.bind_some, if_true, valueAt_spec hd hlookup,
        Option.map_some, Prod.map, hdigits, id]
    · rw [Function.update_self]
      exact hlookup
  | false =>
    obtain ⟨properties, hassign, hproperties⟩ := assign_spec hd k (val d 10)
    have hint : (val d 10).int 10 = d := int_val 10 (by decide) d
    refine ⟨_, ?_, m, _, n, hsections.update hmem hheap hproperties, hmem, ?_⟩
    · simp only [getInteger, hheap, hkey, Option.bind_eq_bind, Option.bind_some, if_true, valueAt_spec hd hlookup,
        Option.map_some, Prod.map, hdigits, id, Bool.false_eq_true, if_false, hassign,
        valueAt_spec hproperties lookup_assign_self, hint]
    · rw [Function.update_self]
      exact lookup_assign_self

/-- The number that is stored stays, if it has no sign or is the default itself. -/
theorem getIntegers_stores (hv : 0 ≤ v ∨ d = v) (hs : Stores p s k (val v 10)) (n : Nat) :
    ∃ p', p.getIntegers s k d n = some (List.replicate n v, p') ∧ Stores p' s k (val v 10) := by
  induction n generalizing p with
  | zero => exact ⟨p, rfl, hs⟩
  | succ n ih =>
    obtain ⟨p₁, hget, hs₁⟩ := getInteger_stores hs d
    have hint : (val v 10).int 10 = v := int_val 10 (by decide) v
    have hkept : (if (val v 10).isDigits then (val v 10).int 10 else d) = v ∧
        (if (val v 10).isDigits then val v 10 else val d 10) = val v 10 := by
      split
      next => exact ⟨hint, rfl⟩
      next hdigits =>
        obtain rfl := hv.resolve_left fun h => hdigits (isDigits_val v |>.mpr h)
        exact ⟨rfl, rfl⟩
    rw [hkept.1] at hget
    rw [hkept.2] at hs₁
    obtain ⟨p₂, hgets, hs₂⟩ := ih hs₁
    refine ⟨p₂, ?_, hs₂⟩
    rw [getIntegers, hget]
    dsimp only [Option.bind_eq_bind, Option.bind_some]
    rw [hgets]
    rfl

/-- After `putInteger` every call of `getInteger` returns the number, and `getString` its text. -/
def IntegerKept (p : IniParser) (s : Ptr) (k : Bytes) (v d : Int32) : Prop :=
  ∃ p', p.putInteger s k v = some p' ∧
    ∀ n, ∃ p'', p'.getIntegers s k d n = some (List.replicate n v, p'') ∧
      ∀ default_value, ∃ q, p''.getString s k default_value = some (val v 10, q)

/-- A number with a sign is no text of digits, so that the first call replaces it. -/
theorem not_integerKept (hs : HoldsAt p s x) (hneg : ¬0 ≤ v) (hne : d ≠ v) : ¬IntegerKept p s k v d := by
  intro h
  obtain ⟨p', hput, hkept⟩ := h
  obtain ⟨q, hput', hs'⟩ := putString_stores hs (k := k) (t := val v 10)
  obtain rfl := Option.some.inj (hput'.symm.trans hput)
  obtain ⟨p₁, hone, -⟩ := getInteger_stores hs' d
  obtain ⟨p₂, htwo, -⟩ := hkept 1
  rw [if_neg fun h => hneg ((isDigits_val v).mp h)] at hone
  simp only [getIntegers, hone, Option.bind_eq_bind, Option.bind_some, Option.some.injEq, Prod.mk.injEq,
    List.replicate_one, List.cons.injEq] at htwo
  exact hne htwo.1.1

/-- A number that is put is kept exactly if it has no sign or is the default. -/
theorem integerKept_iff (hs : HoldsAt p s x) (k : Bytes) (v d : Int32) :
    IntegerKept p s k v d ↔ 0 ≤ v ∨ d = v := by
  constructor
  · intro h
    by_contra hneg
    obtain ⟨hneg, hne⟩ := not_or.mp hneg
    exact not_integerKept hs hneg hne h
  · intro hv
    obtain ⟨p', hput, hs'⟩ := putString_stores hs (k := k) (t := val v 10)
    refine ⟨p', hput, fun n => ?_⟩
    obtain ⟨p'', hget, hs''⟩ := getIntegers_stores hv hs' n
    exact ⟨p'', hget, getString_stores hs''⟩

theorem integerKept_seven : ∃ p s, IntegerKept p s (bytes "a") 7 0 := by
  obtain ⟨p, s, x, hs⟩ := holdsAt_default
  exact ⟨p, s, (integerKept_iff hs (bytes "a") 7 0).mpr (.inl (by decide))⟩

theorem not_integers_kept :
    ¬∀ (p : IniParser) (s : Ptr) (x : Contents × Int), HoldsAt p s x → ∀ (k : Bytes) (v d : Int32),
      IntegerKept p s k v d := by
  intro h
  obtain ⟨p, s, x, hs⟩ := holdsAt_default
  exact not_integerKept hs (by decide) (by decide) (h p s x hs (bytes "a") (-5) 0)

end IniParser

end Srl
