import Mathlib.Data.List.Basic

namespace Srl

/-- A stream of symbols: what arrived, what is left of it, and what was handed out under which label. -/
structure Channel (ι α : Type*) where
  arrived : List α
  left : List α
  handed : List (ι × List α)

namespace Channel

variable {ι α : Type*} {delim : ι → Option α} {c : Channel ι α}

/-- All that was handed out, in order. -/
def taken (handed : List (ι × List α)) : List α := (handed.map Prod.snd).flatten

/-- `x` ends at the first `d` in it. -/
def IsLine (d : α) (x : List α) : Prop := ∃ body, x = body ++ [d] ∧ d ∉ body

/-- Symbols arrive, a label takes nothing, or it takes a line up to its delimiter. -/
inductive Run (delim : ι → Option α) : Channel ι α → Prop
  | start : Run delim ⟨[], [], []⟩
  | arrive {c : Channel ι α} (chunk : List α) : Run delim c →
      Run delim { c with arrived := c.arrived ++ chunk, left := c.left ++ chunk }
  | pass {c : Channel ι α} (l : ι) : Run delim c → Run delim { c with handed := c.handed ++ [(l, [])] }
  | take {c : Channel ι α} {l : ι} {d : α} {x rest : List α} : Run delim c → delim l = some d →
      c.left = x ++ rest → IsLine d x →
      Run delim { c with left := rest, handed := c.handed ++ [(l, x)] }

@[simp] theorem taken_append (s t : List (ι × List α)) : taken (s ++ t) = taken s ++ taken t := by
  simp [taken]

@[simp] theorem taken_cons (l : ι) (x : List α) (t : List (ι × List α)) :
    taken ((l, x) :: t) = x ++ taken t := by
  simp [taken]

@[simp] theorem taken_nil : taken ([] : List (ι × List α)) = [] := rfl

/-- Nothing is lost, doubled or reordered. -/
theorem Run.taken_left (h : Run delim c) : taken c.handed ++ c.left = c.arrived := by
  induction h with
  | start => rfl
  | arrive chunk _ ih => simp only [← ih, List.append_assoc]
  | pass l _ ih => simpa using ih
  | take _ _ hx _ ih =>
    rw [hx] at ih
    simpa using ih

theorem Run.lines (h : Run delim c) {l : ι} {x : List α} (hm : (l, x) ∈ c.handed) (hx : x ≠ []) :
    ∃ d, delim l = some d ∧ IsLine d x := by
  induction h with
  | start => simp at hm
  | arrive _ _ ih => exact ih hm
  | pass l' _ ih =>
    obtain hm | hm := List.mem_append.mp hm
    · exact ih hm
    · simp_all
  | take _ hd _ hline ih =>
    obtain hm | hm := List.mem_append.mp hm
    · exact ih hm
    · obtain ⟨rfl, rfl⟩ : _ ∧ _ := by simpa using hm
      exact ⟨_, hd, hline⟩

/-- A line starts where the ones before it end. -/
theorem Run.prefix_drop (h : Run delim c) (before after : List (ι × List α)) {l : ι} {x : List α}
    (hc : c.handed = before ++ (l, x) :: after) : x <+: c.arrived.drop (taken before).length := by
  rw [← h.taken_left, hc, taken_append, taken_cons, List.append_assoc, List.drop_left,
    List.append_assoc]
  exact List.prefix_append ..

end Channel

end Srl
