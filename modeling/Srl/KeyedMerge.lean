import Mathlib.Data.Prod.Basic

namespace KeyedList

variable {K V ι : Type} {join : V → V → V} {f g : ι → Option (K × V)} {h : ι}

/-- Two maps by digest in one: where both have a binding, with the key of the first and a value made of both. -/
def merge (join : V → V → V) (f g : ι → Option (K × V)) : ι → Option (K × V) := fun h =>
  match f h, g h with
  | none, y => y
  | some x, none => some x
  | some x, some y => some (x.1, join x.2 y.2)

theorem merge_none_left (hf : f h = none) : merge join f g h = g h := by
  rw [merge, hf]

theorem merge_none_right (hg : g h = none) : merge join f g h = f h := by
  rw [merge, hg]
  cases f h <;> rfl

theorem merge_some {x y : K × V} (hf : f h = some x) (hg : g h = some y) :
    merge join f g h = some (x.1, join x.2 y.2) := by
  rw [merge, hf, hg]

theorem merge_empty : merge join f (fun _ => none) = f :=
  funext fun _ => merge_none_right rfl

/-- The first map leaves nothing of its own. -/
theorem merge_eq_right_iff :
    merge join f g = g ↔ ∀ h x, f h = some x → ∃ y, g h = some y ∧ x.1 = y.1 ∧ join x.2 y.2 = y.2 := by
  rw [funext_iff]
  refine forall_congr' fun h => ?_
  cases hf : f h with
  | none => exact ⟨fun _ x hx => absurd hx.symm (Option.some_ne_none x), fun _ => merge_none_left hf⟩
  | some x =>
    cases hg : g h with
    | none =>
      rw [merge_none_right hg, hf]
      refine ⟨fun he => absurd he (Option.some_ne_none x), fun he => ?_⟩
      obtain ⟨y, hy, -⟩ := he x rfl
      exact absurd hy.symm (Option.some_ne_none y)
    | some y =>
      rw [merge_some hf hg, Option.some.injEq, Prod.ext_iff]
      constructor
      · rintro he x' hx
        cases hx
        exact ⟨y, rfl, he⟩
      · intro he
        obtain ⟨y', hy, he⟩ := he x rfl
        cases hy
        exact he

end KeyedList
