import Srl.StrCut

namespace Srl

open Cells Session Occurrences

namespace Str

variable {s : Str} {l P M S x t : Bytes} {pos len : Nat} (fresh : Nat → UInt8)

/-- The buffer of a string, with another text of the same length in place of its own. -/
theorem Holds.rewritten {l' r : Bytes} (h : Holds s l) (hs : s = s.withBuffer (l ++ 0 :: r))
    (hlen : l'.length = l.length)
    (hne : l ≠ []) : Holds (s.withBuffer (l' ++ 0 :: r)) l' := by
  have hsize := h.array_size_eq
  rw [hs] at hsize
  refine ⟨h.length_eq.trans hlen.symm, ?_, fun _ => ⟨r, by simp [withBuffer, buffer]⟩, ⟨nofun, fun he => ?_⟩, h.min_lt⟩
  · show s.array_size = (l' ++ 0 :: r).length
    have hsize : s.array_size = (l ++ 0 :: r).length := hsize
    rw [hsize, List.length_append, List.length_append, hlen]
  · rw [he.1] at hlen
    exact absurd (List.eq_nil_of_length_eq_zero hlen.symm) hne

theorem Holds.isSome (h : Holds s l) (hl : l ≠ []) : s.str.isSome := by
  by_contra hs
  exact hl (h.empty_iff.mp (by simpa using hs)).1

/-- The end of `replaceFrom`, when there is a gap of the right size. -/
theorem Holds.fillGap (h : Holds s (P ++ (x ++ S))) (hx : x.length = t.length) (ht : t ≠ []) :
    ∃ s', (memcpy P.length t >>= fun _ => write (P ++ (t ++ S)).length 0) s = (.ok (), s') ∧
      Holds s' (P ++ (t ++ S)) := by
  have hpos := List.length_pos_of_ne_nil ht
  have hne : P ++ (x ++ S) ≠ [] := List.ne_nil_of_length_pos (by simp only [List.length_append]; omega)
  have hlen : (P ++ (t ++ S)).length = (P ++ (x ++ S)).length := by
    simp only [List.length_append]
    omega
  obtain ⟨r, hr⟩ := h.some_buffer (h.isSome hne)
  have hover : overwrite ((P ++ (x ++ S)) ++ 0 :: r) P.length t = (P ++ (t ++ S)) ++ 0 :: r := by
    have hsplit : (P ++ (x ++ S)) ++ 0 :: r = P ++ (x ++ (S ++ 0 :: r)) := by simp only [List.append_assoc]
    rw [hsplit, overwrite_middle rfl hx]
    simp only [List.append_assoc]
  have hcopy : memcpy P.length t s = (.ok (), s.withBuffer ((P ++ (t ++ S)) ++ 0 :: r)) := by
    conv_lhs => rw [hr]
    rw [memcpy_eq (by simp only [List.length_append, List.length_cons]; omega), hover]
  have hset : ((P ++ (t ++ S)) ++ 0 :: r).set (P ++ (t ++ S)).length 0 = (P ++ (t ++ S)) ++ 0 :: r := by
    rw [List.set_append_right _ _ (Nat.le_refl _), Nat.sub_self]
    rfl
  refine ⟨_, ?_, h.rewritten hr hlen hne⟩
  rw [bind_ok hcopy, write_eq (by simp), hset]

/-- The middle part of `replaceFrom`: the resize and the move, which leave a gap for the new text. -/
def openGap (length new_size dst_pos src_pos src_size : Nat) : Call Unit := do
  if length < new_size then resize fresh new_size else pure ()
  memmove dst_pos src_pos src_size
  if new_size < length then resize fresh new_size else pure ()

theorem Holds.openGap_grows (h : Holds s (P ++ (M ++ S))) (hlt : M.length < t.length)
    (hfew : P.length + t.length + S.length + 16 < 2 ^ 32) :
    ∃ s' x, openGap fresh (P.length + M.length + S.length) (P.length + t.length + S.length) (P ++ t).length
      (P ++ M).length
      S.length s = (.ok (), s') ∧ x.length = t.length ∧ Holds s' (P ++ (x ++ S)) := by
  have hold : (P ++ (M ++ S)).length = P.length + M.length + S.length := by
    simp only [List.length_append]
    omega
  have hfront : (P ++ (M ++ S)).length = (P ++ M).length + S.length := by
    simp only [List.length_append]
    omega
  have htake : (P ++ (M ++ S)).take (P ++ M).length = P ++ M := by rw [← List.append_assoc, List.take_left]
  have hdrop : (P ++ (M ++ S)).drop (P ++ M).length = S := by rw [← List.append_assoc, List.drop_left]
  obtain ⟨g, r, hres, hg, -, hlen⟩ := @Holds.resize_grows s _ (P.length + t.length + S.length) h fresh (by omega) hfew
    (.inl (by omega))
  have hdst : (P ++ t).length = (P ++ M).length + g.length := by
    simp only [List.length_append]
    omega
  obtain ⟨x, hx, hover⟩ := overwrite_shift (P ++ (M ++ S)) g (0 :: r)
    (by omega : (P ++ M).length ≤ (P ++ (M ++ S)).length)
  have hbuf : (P ++ M) ++ (x ++ (S ++ 0 :: r)) = (P ++ ((M ++ x) ++ S)) ++ 0 :: r := by simp only [List.append_assoc]
  rw [htake, hdrop, hbuf, hfront, ← hdst] at hover
  have hlen' := congrArg List.length hover
  simp only [length_overwrite] at hlen'
  refine ⟨(s.resized fresh _).withBuffer _, M ++ x, ?_, by rw [List.length_append]; omega, .of_resized h.min_lt
    (.inl (by omega : 0 < P.length + t.length + S.length)) ?_ (hlen'.symm.trans hlen)⟩
  · unfold openGap
    rw [if_pos (by omega), bind_ok hres]
    dsimp only
    rw [bind_ok (memmove_eq ?_), hover, if_neg (by omega)]
    · rfl
    · simp only [List.length_append, List.length_cons]
      omega
  · simp only [List.length_append]
    omega

theorem window_tail (P M S r : Bytes) :
    window ((P ++ (M ++ S)) ++ r) (P ++ M).length ((P ++ M).length + S.length) = S := by
  rw [show (P ++ (M ++ S)) ++ r = (P ++ M) ++ (S ++ r) by simp only [List.append_assoc]]
  exact window_middle (P ++ M) S r

theorem Holds.openGap_same (h : Holds s (P ++ (M ++ S))) (hne : P ++ (M ++ S) ≠ []) (heq : M.length = t.length) :
    openGap fresh (P.length + M.length + S.length) (P.length + t.length + S.length) (P ++ t).length (P ++ M).length
      S.length s = (.ok (), s) := by
  obtain ⟨r, hr⟩ := h.some_buffer (h.isSome hne)
  have hdst : (P ++ t).length = (P ++ M).length := by
    simp only [List.length_append]
    omega
  have hover : overwrite ((P ++ (M ++ S)) ++ 0 :: r) (P ++ M).length S = (P ++ (M ++ S)) ++ 0 :: r := by
    have hbuf : (P ++ (M ++ S)) ++ 0 :: r = (P ++ M) ++ (S ++ 0 :: r) := by simp only [List.append_assoc]
    rw [hbuf, overwrite_middle rfl rfl]
  have hmove : memmove (P ++ M).length (P ++ M).length S.length s = (.ok (), s) := by
    conv_lhs => rw [hr]
    rw [memmove_eq (by simp only [List.length_append, List.length_cons]; omega), window_tail, hover, ← hr]
  unfold openGap
  rw [if_neg (by omega), hdst]
  dsimp only
  rw [bind_ok hmove, if_neg (by omega)]
  rfl

theorem Holds.openGap_shrinks (h : Holds s (P ++ (M ++ S))) (hne : P ++ (M ++ S) ≠ []) (ht : t ≠ [])
    (hgt : t.length < M.length) (hfew : P.length + t.length + S.length + 16 < 2 ^ 32) :
    ∃ s', openGap fresh (P.length + M.length + S.length) (P.length + t.length + S.length) (P ++ t).length
      (P ++ M).length
      S.length s = (.ok (), s') ∧ Holds s' (P ++ (M.take t.length ++ S)) := by
  have hpos := List.length_pos_of_ne_nil ht
  obtain ⟨r, hr⟩ := h.some_buffer (h.isSome hne)
  have hmove : memmove (P ++ t).length (P ++ M).length S.length s =
      (.ok (), s.withBuffer (overwrite ((P ++ (M ++ S)) ++ 0 :: r) (P ++ t).length S)) := by
    conv_lhs => rw [hr]
    rw [memmove_eq (by simp only [List.length_append, List.length_cons]; omega), window_tail]
  have hfront : P ++ (M.take t.length ++ S) <+: overwrite ((P ++ (M ++ S)) ++ 0 :: r) (P ++ t).length S := by
    have hcut : ((P ++ (M ++ S)) ++ 0 :: r).take (P ++ t).length = P ++ M.take t.length := by
      simp only [List.append_assoc]
      rw [List.length_append, List.take_length_add_append, List.take_append_of_le_length (Nat.le_of_lt hgt)]
    have hall : S.take (((P ++ (M ++ S)) ++ 0 :: r).length - (P ++ t).length) = S := by
      apply List.take_of_length_le
      simp only [List.length_append, List.length_cons]
      omega
    rw [overwrite, hcut, hall, ← List.append_assoc]
    exact List.prefix_append _ _
  have hlen : (P ++ (M.take t.length ++ S)).length = P.length + t.length + S.length := by
    simp only [List.length_append, List.length_take]
    omega
  obtain ⟨s', hs', hholds⟩ := @resize_cut (s.withBuffer _) _ fresh (by
    show s.array_size = (overwrite _ _ _).length
    rw [length_overwrite, h.array_size_eq]
    conv_lhs => rw [hr]
    rfl) h.min_lt (by omega) hfront
  refine ⟨s', ?_, hholds⟩
  unfold openGap
  rw [if_neg (by omega)]
  dsimp only
  rw [bind_ok hmove, if_pos (by omega), ← hlen]
  exact hs'

theorem Holds.openGap_spec (h : Holds s (P ++ (M ++ S))) (ht : t ≠ []) (hne : P ++ (M ++ S) ≠ [])
    (hfew : (P ++ (t ++ S)).length + 16 < 2 ^ 32) :
    ∃ s' x, openGap fresh (P ++ (M ++ S)).length (P ++ (t ++ S)).length (P ++ t).length (P ++ M).length S.length s =
      (.ok (), s') ∧ x.length = t.length ∧ Holds s' (P ++ (x ++ S)) := by
  have hlength : ∀ x : Bytes, (P ++ (x ++ S)).length = P.length + x.length + S.length := fun x => by
    simp only [List.length_append]
    omega
  rw [hlength] at hfew
  rw [hlength, hlength]
  obtain hlt | heq | hgt := Nat.lt_trichotomy M.length t.length
  · exact h.openGap_grows fresh hlt hfew
  · exact ⟨s, M, h.openGap_same fresh hne heq, heq, h⟩
  · obtain ⟨s', hs', hcut⟩ := h.openGap_shrinks fresh hne ht hgt hfew
    exact ⟨s', M.take t.length, hs', List.length_take_of_le (Nat.le_of_lt hgt), hcut⟩

/-- A text that is not empty takes the place of the middle part. -/
theorem Holds.replaceFrom_spec (h : Holds s (P ++ (M ++ S))) (ht : t ≠ []) (hne : P ++ (M ++ S) ≠ [])
    (hold : (P ++ (M ++ S)).length + 16 < 2 ^ 32) (hfew : (P ++ (t ++ S)).length + 16 < 2 ^ 32) :
    ∃ s', replaceFrom fresh P.length M.length t s = (.ok (), s') ∧ Holds s' (P ++ (t ++ S)) := by
  obtain ⟨s₁, x, hgap, hx, hs₁⟩ := h.openGap_spec fresh ht hne hfew
  obtain ⟨s₂, hfill, hs₂⟩ := hs₁.fillGap hx ht
  refine ⟨s₂, ?_, hs₂⟩
  have hpos := List.length_pos_of_ne_nil ht
  have hpos' := List.length_pos_of_ne_nil hne
  simp only [List.length_append] at hold hfew hgap hfill hpos'
  have hlength : s.string_length % 2 ^ 32 = P.length + (M.length + S.length) := by
    rw [h.length_eq, List.length_append, List.length_append]
    omega
  have hnsize : t.length % 2 ^ 32 = t.length := Nat.mod_eq_of_lt (by omega)
  have hsrc : (P.length + M.length) % 2 ^ 32 = P.length + M.length := Nat.mod_eq_of_lt (by omega)
  have hdst : (P.length + t.length) % 2 ^ 32 = P.length + t.length := Nat.mod_eq_of_lt (by omega)
  have hsize : (P.length + (M.length + S.length) + 2 ^ 32 - (P.length + M.length)) % 2 ^ 32 = S.length := by omega
  have hnew : (P.length + (M.length + S.length) + (t.length + 2 ^ 32 - M.length % 2 ^ 32)) % 2 ^ 32 =
      P.length + (t.length + S.length) := by omega
  unfold replaceFrom
  rw [get_bind, hlength, hnsize, hsrc, hdst, hsize, hnew, List.take_length]
  dsimp only
  rw [if_neg (by omega), if_pos hpos]
  have hrun : (openGap fresh (P.length + (M.length + S.length)) (P.length + (t.length + S.length)) (P.length + t.length)
      (P.length + M.length) S.length >>= fun _ => memcpy P.length t >>= fun _ =>
        write (P.length + (t.length + S.length)) 0) s = (.ok (), s₂) := by
    rw [bind_ok hgap]
    exact hfill
  refine Eq.trans ?_ hrun
  unfold openGap
  by_cases hgrow : P.length + (M.length + S.length) < P.length + (t.length + S.length)
  · simp only [if_pos hgrow, if_neg (Nat.not_lt_of_gt hgrow), bind_assoc, pure_bind]
  · by_cases hshrink : P.length + (t.length + S.length) < P.length + (M.length + S.length)
    · simp only [if_neg hgrow, if_pos hshrink, bind_assoc]
    · simp only [if_neg hgrow, if_neg hshrink, bind_assoc, pure_bind]

/-- An empty string is left as it is. -/
theorem replaceFrom_empty (h : Holds s []) (pos len : Nat) (t : Bytes) :
    replaceFrom fresh pos len t s = (.ok (), s) := by
  unfold replaceFrom
  rw [get_bind, h.length_eq]
  rfl

/-- An empty text only has a terminator written. -/
theorem Holds.replaceFrom_nil (h : Holds s l) (hne : l ≠ []) (hl : l.length < 2 ^ 32) (pos : Nat)
    (hlen : len ≤ l.length) :
    replaceFrom fresh pos len [] s = write (l.length - len) 0 s := by
  have hpos := List.length_pos_of_ne_nil hne
  have hnew : (l.length + (0 + 2 ^ 32 - len % 2 ^ 32)) % 2 ^ 32 = l.length - len := by omega
  unfold replaceFrom
  rw [get_bind, h.length_eq, Nat.mod_eq_of_lt hl, List.length_nil, Nat.zero_mod, hnew]
  dsimp only
  rw [if_neg (by omega), if_neg (Nat.lt_irrefl 0)]
  rfl

theorem Holds.write_terminator (h : Holds s l) (hne : l ≠ []) : write l.length 0 s = (.ok (), s) := by
  obtain ⟨r, hr⟩ := h.some_buffer (h.isSome hne)
  conv_lhs => rw [hr]
  rw [write_eq (by simp), List.set_append_right _ _ (Nat.le_refl _), Nat.sub_self]
  exact congrArg _ hr.symm

/-- The text with `t` in place of the `len` characters from `pos` on. -/
def replaced (l : Bytes) (pos len : Nat) (t : Bytes) : Bytes := l.take pos ++ (t ++ l.drop (pos + len))

theorem replaced_parts (P M S t : Bytes) : replaced (P ++ (M ++ S)) P.length M.length t = P ++ (t ++ S) := by
  rw [replaced, List.take_left, ← List.append_assoc P M S, ← List.length_append, List.drop_left]

theorem parts_of_le (h : pos + len ≤ l.length) : ∃ P M S, l = P ++ (M ++ S) ∧ P.length = pos ∧ M.length = len := by
  refine ⟨l.take pos, (l.drop pos).take len, (l.drop pos).drop len, ?_, ?_, ?_⟩
  · rw [List.take_append_drop, List.take_append_drop]
  · rw [List.length_take]
    omega
  · rw [List.length_take, List.length_drop]
    omega

theorem Stores.replaceFrom_parts (h : Stores s (P ++ (M ++ S))) (ht : t ≠ []) (hne : P ++ (M ++ S) ≠ [])
    (hfew : (P ++ (t ++ S)).length + 16 < 2 ^ 32) :
    Becomes (replaceFrom fresh P.length M.length t) s (P ++ (t ++ S)) :=
  h.becomes (keeps_replaceFrom fresh _ _ t) (h.replaceFrom_spec fresh ht hne h.length_lt hfew)

theorem Stores.replaceFrom_becomes (h : Stores s l) (hle : pos + len ≤ l.length) (hempty : l = [] → t = [])
    (hdelete : t = [] → len = 0) (hfew : l.length - len + t.length + 16 < 2 ^ 32) :
    Becomes (replaceFrom fresh pos len t) s (replaced l pos len t) := by
  have hsmall := h.length_lt
  by_cases ht : t = []
  · obtain rfl := hdelete ht
    have hsame : replaced l pos 0 t = l := by rw [replaced, ht, List.nil_append, Nat.add_zero, List.take_append_drop]
    rw [hsame, ht]
    by_cases hne : l = []
    · subst hne
      exact ⟨s, replaceFrom_empty fresh h.toHolds pos 0 [], h⟩
    · exact ⟨s, (h.replaceFrom_nil fresh hne (by omega) pos (Nat.zero_le _)).trans (h.write_terminator hne), h⟩
  · obtain ⟨P, M, S, rfl, rfl, rfl⟩ := parts_of_le hle
    rw [replaced_parts]
    refine h.replaceFrom_parts fresh ht (fun hl => ht (hempty hl)) ?_
    simp only [List.length_append] at hfew ⊢
    omega

/-- `replaceFrom` is right unless it deletes, fills an empty string or makes the text too long. -/
theorem replaceFrom_iff (h : Stores s l) (hl : ∀ b ∈ l, b ≠ 0) (ht : ∀ b ∈ t, b ≠ 0) (hle : pos + len ≤ l.length) :
    (∃ s', replaceFrom fresh pos len t s = (.ok (), s') ∧ Stores s' (replaced l pos len t) ∧
      strlen 0 s' = (.ok (replaced l pos len t).length, s')) ↔
    (l = [] → t = []) ∧ (t = [] → len = 0) ∧ l.length - len + t.length + 16 < 2 ^ 32 := by
  have hsmall := h.length_lt
  have hlen : (replaced l pos len t).length = l.length - len + t.length := by
    rw [replaced, List.length_append, List.length_append, List.length_take, List.length_drop]
    omega
  constructor
  · rintro ⟨s', hs', hr, -⟩
    refine ⟨fun hnil => ?_, fun hnil => ?_, hlen ▸ hr.length_lt⟩
    · subst hnil
      rw [replaceFrom_empty fresh h.toHolds] at hs'
      cases hs'
      have hzero := h.length_eq.symm.trans hr.length_eq
      rw [hlen] at hzero
      exact List.eq_nil_of_length_eq_zero (by simp only [List.length_nil] at hzero; omega)
    · by_cases hne : l = []
      · rw [hne, List.length_nil] at hle
        omega
      · rw [hnil, h.replaceFrom_nil fresh hne (by omega) pos (by omega), write_run] at hs'
        split at hs'
        next =>
          cases hs'
          have hsame : l.length = _ := h.length_eq.symm.trans hr.length_eq
          rw [hlen, hnil, List.length_nil] at hsame
          omega
        next => cases hs'
  · rintro ⟨hempty, hdelete, hfew⟩
    obtain ⟨s', hs', hr⟩ := h.replaceFrom_becomes fresh hle hempty hdelete hfew
    have hnul : ∀ b ∈ replaced l pos len t, b ≠ 0 := by
      intro b hb
      rw [replaced, List.mem_append, List.mem_append] at hb
      rcases hb with hb | hb | hb
      · exact hl b (List.mem_of_mem_take hb)
      · exact ht b hb
      · exact hl b (List.mem_of_mem_drop hb)
    have hstrlen := hr.toHolds.shows.strlen_eq (Nat.zero_le _)
    rw [List.drop_zero, Bytes.cstr_of_ne hnul] at hstrlen
    exact ⟨s', hs', hr, hstrlen⟩

theorem replaceFrom_iff_grows : ∃ s s', Stores s (bytes "a-b") ∧
    replaceFrom (fun _ => 7) 1 1 (bytes " and ") s = (.ok (), s') ∧
    Stores s' (bytes "a and b") := by
  obtain ⟨s, -, h⟩ := create_copy (fun _ => 7) empty (by decide : (bytes "a-b").length + 16 < 2 ^ 32)
  obtain ⟨s', hs', hr, -⟩ := (@replaceFrom_iff s (bytes "a-b") (bytes " and ") 1 1 (fun _ => 7) h
    (by decide) (by decide)
    (by decide)).mpr (by decide)
  exact ⟨s, s', h, hs', hr⟩

/-- A character replaced by nothing leaves the length as it is. -/
theorem not_replaceFrom_nothing : ¬∀ (s : Str) (l t : Bytes) (pos len : Nat) (fresh : Nat → UInt8), Stores s l →
    (∀ b ∈ l, b ≠ 0) → (∀ b ∈ t, b ≠ 0) → pos + len ≤ l.length →
      ∃ s', replaceFrom fresh pos len t s = (.ok (), s') ∧ Stores s' (replaced l pos len t) ∧
        strlen 0 s' = (.ok (replaced l pos len t).length, s') := by
  intro hall
  obtain ⟨s, -, h⟩ := create_copy (fun _ => 7) empty (by decide : (bytes "ab").length + 16 < 2 ^ 32)
  have hnil : ∀ b ∈ ([] : Bytes), b ≠ 0 := fun b hb => absurd hb List.not_mem_nil
  have hcond := (@replaceFrom_iff s (bytes "ab") [] 1 1 (fun _ => 7) h (by decide) hnil (by decide)).mp
    (hall s (bytes "ab") [] 1 1 (fun _ => 7) h (by decide) hnil (by decide))
  exact absurd (hcond.2.1 rfl) (by decide)

end Str

end Srl
