import Srl.Bytes

namespace Srl

namespace Bytes

theorem cstr_append_of_ne {s t : Bytes} (h : ∀ c ∈ s, c ≠ 0) : cstr (s ++ t) = s ++ cstr t := by
  rw [cstr, List.takeWhile_append_of_pos (by simpa using h), cstr]

theorem cstr_of_ne {s : Bytes} (h : ∀ c ∈ s, c ≠ 0) : cstr s = s := by
  simpa [cstr] using cstr_append_of_ne (t := []) h

theorem ne_of_mem_cstr {s : Bytes} {c : UInt8} (h : c ∈ cstr s) : c ≠ 0 := by
  simpa using List.all_eq_true.mp List.all_takeWhile c h

theorem cstr_cstr (s : Bytes) : cstr (cstr s) = cstr s := cstr_of_ne fun _ h => ne_of_mem_cstr h

theorem replaceChar_eq_map {s : Bytes} (hs : ∀ c ∈ s, c ≠ 0) (c₁ c₂ : UInt8) :
    s.replaceChar c₁ c₂ = s.map fun c => if c = c₁ then c₂ else c := by
  rw [replaceChar, cstr_of_ne hs, List.drop_length, List.append_nil]

/-- The first occurrence of a character behind a text without it. -/
theorem find_eq {s text rest : Bytes} {c : UInt8} {pos : Nat} (hs : s.drop pos = text ++ c :: rest)
    (hc : c ≠ 0) (ht : ∀ x ∈ text, x ≠ c ∧ x ≠ 0) : s.find c pos = some (pos + text.length) := by
  have hcs : cstr (text ++ c :: rest) = text ++ c :: cstr rest := by
    rw [cstr_append_of_ne fun x hx => (ht x hx).2]
    simp [cstr, hc]
  have hidx : (text ++ c :: cstr rest).findIdx? (· = c) = some text.length := by
    rw [List.findIdx?_append, List.findIdx?_eq_none_iff.mpr fun x hx => by simp [(ht x hx).1]]
    simp [List.findIdx?_cons]
  rw [find, if_neg hc, hs, hcs, hidx]
  rfl

theorem find_eq_none {s : Bytes} {c : UInt8} {pos : Nat} (hc : c ≠ 0) (h : ∀ x ∈ s.drop pos, x ≠ c) :
    s.find c pos = none := by
  rw [find, if_neg hc, Option.map_eq_none_iff, List.findIdx?_eq_none_iff]
  intro x hx
  simpa using h x ((List.takeWhile_prefix _).subset hx)

theorem find_bounds {s : Bytes} {c : UInt8} {pos i : Nat} (hc : c ≠ 0) (h : s.find c pos = some i) :
    pos ≤ i ∧ i < s.length := by
  rw [find, if_neg hc] at h
  obtain ⟨j, hj, rfl⟩ := Option.map_eq_some_iff.mp h
  have hlt := (List.findIdx?_eq_some_iff_getElem.mp hj).1
  have hle : (cstr (s.drop pos)).length ≤ (s.drop pos).length := (List.takeWhile_prefix _).length_le
  rw [List.length_drop] at hle
  omega

/-- What a character that was found stands behind. -/
theorem find_some {s : Bytes} {c : UInt8} {pos i : Nat} (hc : c ≠ 0) (h : s.find c pos = some i) :
    ∃ text rest, s.drop pos = text ++ c :: rest ∧ i = pos + text.length ∧ ∀ x ∈ text, x ≠ c ∧ x ≠ 0 := by
  rw [find, if_neg hc] at h
  obtain ⟨j, hj, rfl⟩ := Option.map_eq_some_iff.mp h
  obtain ⟨hlt, hget, hbefore⟩ := List.findIdx?_eq_some_iff_getElem.mp hj
  have hprefix : (cstr (s.drop pos)).take (j + 1) <+: s.drop pos :=
    (List.take_prefix _ _).trans (List.takeWhile_prefix _)
  obtain ⟨rest, hrest⟩ := hprefix
  have hget : (cstr (s.drop pos))[j] = c := of_decide_eq_true hget
  refine ⟨(cstr (s.drop pos)).take j, rest, ?_, by rw [List.length_take, Nat.min_eq_left (Nat.le_of_lt hlt)], ?_⟩
  · rw [List.take_add_one, List.getElem?_eq_getElem hlt, hget, List.append_assoc] at hrest
    exact hrest.symm
  · intro x hx
    obtain ⟨k, hk, rfl⟩ := List.mem_iff_getElem.mp hx
    rw [List.length_take] at hk
    rw [List.getElem_take]
    exact ⟨fun hxc => hbefore k (by omega) (decide_eq_true hxc), ne_of_mem_cstr (List.getElem_mem _)⟩

theorem substr_eq {s text rest : Bytes} {pos : Nat} (hs : s.drop pos = text ++ rest) (ht : text ≠ []) :
    s.substr pos text.length = text := by
  have hlen : pos + text.length ≤ s.length := by
    have := congrArg List.length hs
    have := List.length_pos_of_ne_nil ht
    simp only [List.length_drop, List.length_append] at *
    omega
  have hz : text.length ≠ 0 := by simpa using ht
  rw [substr, mid, if_pos hlen, ofText, if_neg hz, hs, List.take_left']
  rfl

end Bytes

end Srl
