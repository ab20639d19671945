import Mathlib.Data.List.Basic
import Mathlib.Data.List.Nodup

namespace LinkedList

/-- The addresses of a doubly linked segment; `links` gives the previous and the next
address of a node, `p` stands before the segment and `q` after it. -/
def Segment (links : Nat → Option (Nat × Nat)) (p : Nat) : List Nat → Nat → Prop
  | [], _ => True
  | a :: xs, q => links a = some (p, xs.head?.getD q) ∧ Segment links a xs q

variable {links links' : Nat → Option (Nat × Nat)} {p p' q q' a : Nat} {xs ys : List Nat}

@[simp] theorem segment_nil : Segment links p [] q := trivial

@[simp] theorem segment_cons :
    Segment links p (a :: xs) q ↔ links a = some (p, xs.head?.getD q) ∧ Segment links a xs q := Iff.rfl

theorem segment_append :
    Segment links p (xs ++ ys) q ↔
      Segment links p xs (ys.head?.getD q) ∧ Segment links (xs.getLast?.getD p) ys q := by
  induction xs generalizing p with
  | nil => simp
  | cons a xs ih =>
    rw [List.cons_append, segment_cons, segment_cons, ih, and_assoc]
    cases xs <;> simp [List.getLast?_cons]

theorem Segment.congr (h : Segment links p xs q) (same : ∀ a ∈ xs, links' a = links a) :
    Segment links' p xs q := by
  induction xs generalizing p with
  | nil => trivial
  | cons a xs ih =>
    exact ⟨(same a (by simp)).trans h.1, ih h.2 fun b hb => same b (by simp [hb])⟩

/-- The node in the middle of a list. -/
theorem Segment.at (h : Segment links p (xs ++ a :: ys) q) :
    links a = some (xs.getLast?.getD p, ys.head?.getD q) :=
  (segment_append.mp h).2.1

/-- Giving the first node another predecessor. -/
theorem Segment.setPrev (h : Segment links p xs q) (hn : xs.Nodup)
    (first : ∀ a ∈ xs.head?, links' a = (links a).map fun l => (p', l.2))
    (same : ∀ a ∈ xs, a ∉ xs.head? → links' a = links a) : Segment links' p' xs q := by
  cases xs with
  | nil => trivial
  | cons a xs =>
    refine ⟨by simp [first a (by simp), h.1], h.2.congr fun b hb => same b (by simp [hb]) ?_⟩
    rintro hab
    obtain rfl : a = b := by simpa using hab
    exact (List.nodup_cons.mp hn).1 hb

/-- Giving the last node another successor. -/
theorem Segment.setNext (h : Segment links p xs q) (hn : xs.Nodup)
    (last : ∀ a ∈ xs.getLast?, links' a = (links a).map fun l => (l.1, q'))
    (same : ∀ a ∈ xs, a ∉ xs.getLast? → links' a = links a) : Segment links' p xs q' := by
  induction xs generalizing p with
  | nil => trivial
  | cons a xs ih =>
    obtain ⟨ha, hx⟩ := h
    obtain ⟨hax, hn⟩ := List.nodup_cons.mp hn
    cases xs with
    | nil => exact ⟨by simp [last a (by simp), ha], trivial⟩
    | cons b xs =>
      refine ⟨?_, ih hx hn (fun c hc => last c (by simpa using hc)) fun c hc hl => ?_⟩
      · rw [same a (by simp), ha]
        · rfl
        · intro hl
          exact hax (List.mem_of_getLast? (by simpa using hl))
      · exact same c (by simp [hc]) (by simpa using hl)

/-- Previous and next links mirror each other. -/
theorem Segment.mirror {b : Nat} (h : Segment links p xs q) (hp : p ∉ xs) (hq : q ∉ xs) (ha : a ∈ xs) (hb : b ∈ xs) :
    (links a).map Prod.snd = some b ↔ (links b).map Prod.fst = some a := by
  constructor
  · intro hnext
    obtain ⟨us, vs, rfl⟩ := List.append_of_mem ha
    rw [h.at, Option.map_some, Option.some.injEq] at hnext
    cases vs with
    | nil =>
      obtain rfl : q = b := hnext
      exact absurd hb hq
    | cons c vs =>
      obtain rfl : c = b := hnext
      have hsplit : Segment links p ((us ++ [a]) ++ c :: vs) q := by rwa [← List.append_cons]
      rw [hsplit.at, List.getLast?_concat]
      rfl
  · intro hprev
    obtain ⟨us, vs, rfl⟩ := List.append_of_mem hb
    rw [h.at, Option.map_some, Option.some.injEq] at hprev
    rcases List.eq_nil_or_concat us with rfl | ⟨us, c, rfl⟩
    · obtain rfl : p = a := hprev
      exact absurd ha hp
    · rw [List.concat_eq_append, List.getLast?_concat] at hprev
      obtain rfl : c = a := hprev
      rw [List.concat_eq_append, List.append_assoc, List.singleton_append] at h
      rw [h.at]
      rfl

end LinkedList
