import Srl.StrCut

namespace Srl

open Cells Session

namespace Str

variable {s s' : Str} {l : Bytes} {pos len : Nat} {fresh : Nat → UInt8}

/-- The length that a removal which returns leaves. -/
theorem Sane.remove_length (hs : Sane s) (hlen : len ≠ 0) (hrun : remove fresh pos len s = (.ok (), s')) :
    s'.string_length = if s.string_length ≤ (pos + len) % 2 ^ 32 then pos else
      (s.string_length + 2 ^ 32 - len) % 2 ^ 32 := by
  unfold remove at hrun
  rw [get_bind, if_neg hlen] at hrun
  split at hrun
  next hend =>
    rw [if_pos hend]
    exact (resize_sane hs.toAllocated hrun).2.1
  next hend =>
    rw [if_neg hend]
    obtain ⟨_, t, hmove, hrun⟩ := bind_inv hrun
    exact (resize_sane (keeps_memmove _ _ _ s () t hmove hs).toAllocated hrun).2.1

/-- A removal is right if it starts inside the text and its end is a uint32, and else only if it removes nothing. -/
theorem remove_iff (fresh : Nat → UInt8) (h : Stores s l) (hpos : pos < 2 ^ 32) (hlen : len < 2 ^ 32) :
    Becomes (remove fresh pos len) s (l.take pos ++ l.drop (pos + len)) ↔
      len = 0 ∨ (pos ≤ l.length ∧ pos + len < 2 ^ 32) := by
  have hfew := h.length_lt
  constructor
  · rintro ⟨s', hs', hr⟩
    by_cases hzero : len = 0
    · exact .inl hzero
    · refine .inr ?_
      have hsize := h.sane.remove_length hzero hs'
      have hnew := hr.length_eq
      rw [h.length_eq] at hsize
      rw [List.length_append, List.length_take, List.length_drop] at hnew
      split at hsize <;> omega
  · rintro (rfl | ⟨hle, hwrap⟩)
    · rw [Nat.add_zero, List.take_append_drop]
      exact ⟨s, rfl, h⟩
    · exact h.becomes (keeps_remove fresh pos len) (h.remove_spec fresh hfew hle hwrap)

theorem remove_iff_clipped : ∃ s s', Stores s (bytes "peace") ∧ remove (fun _ => 7) 2 9 s = (.ok (), s') ∧
    Stores s' (bytes "pe") := by
  obtain ⟨s, -, h⟩ := create_copy (fun _ => 7) empty (by decide : (bytes "peace").length + 16 < 2 ^ 32)
  obtain ⟨s', hs', hr⟩ := (@remove_iff s (bytes "peace") 2 9 (fun _ => 7) h (by decide) (by decide)).mpr (by decide)
  exact ⟨s, s', h, hs', hr⟩

/-- A removal behind the end makes the text longer. -/
theorem not_remove_behind : ¬∀ (s : Str) (l : Bytes) (pos len : Nat) (fresh : Nat → UInt8), Stores s l → pos < 2 ^ 32 →
    len < 2 ^ 32 → Becomes (remove fresh pos len) s (l.take pos ++ l.drop (pos + len)) := by
  intro hall
  obtain ⟨s, -, h⟩ := create_copy (fun _ => 7) empty (by decide : (bytes "abc").length + 16 < 2 ^ 32)
  have hcond := (remove_iff (fun _ => 7) h (by decide) (by decide)).mp
    (hall s (bytes "abc") 5 1 (fun _ => 7) h (by decide) (by decide))
  exact absurd hcond (by decide)

end Str

end Srl
