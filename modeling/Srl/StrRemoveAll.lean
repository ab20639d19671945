import Srl.StrRemove

namespace Srl

open Cells Session Occurrences

namespace Str

variable {s : Str} {l a b t w P : Bytes} {c : UInt8} {next : Nat → Call Int} {body : Nat → Nat → Call Unit}

/-- A search from a position on answers the first `a`. -/
def Finds (next : Nat → Call Int) (a : Bytes) : Prop :=
  ∀ s l pos, Shows s l → (∀ b ∈ l, b ≠ 0) → pos ≤ l.length →
    next pos s = (.ok (position ((firstAt a (l.drop pos)).map (pos + ·))), s)

/-- A change at a position where `a` stands puts `b` there. -/
def Puts (body : Nat → Nat → Call Unit) (a b : Bytes) : Prop :=
  ∀ k s P v, Stores s (P ++ (a ++ v)) → (P ++ (b ++ v)).length + 16 < 2 ^ 32 →
    Becomes (body k P.length) s (P ++ (b ++ v))

theorem finds_char (hc : c ≠ 0) : Finds (find c) [c] := fun _ _ pos h hl hpos => by
  rw [h.find_eq c hpos, Bytes.find_firstAt hl hc]

theorem finds_text (ht : ∀ b ∈ t, b ≠ 0) : Finds (findText t) t := fun _ _ pos h hl hpos => by
  rw [h.findText_eq hl ht hpos, Bytes.findText_firstAt hl]

theorem puts_remove (mem : Nat → Nat → UInt8) (t : Bytes) : Puts (fun k npos => remove (mem k) npos t.length) t [] := by
  intro k s P v h _
  have hfew := h.length_lt
  have hlen : (P ++ (t ++ v)).length = P.length + t.length + v.length := by
    simp only [List.length_append]
    omega
  have hspec := @Holds.remove_spec s _ t.length P.length h.toHolds (mem k) hfew (by omega) (by omega)
  rw [List.take_left, ← List.append_assoc P t v, ← List.length_append, List.drop_left] at hspec
  exact h.becomes (keeps_remove (mem k) _ _) hspec

theorem clean_splice {v : Bytes} (hl : ∀ c ∈ P ++ (a ++ v), c ≠ 0) (hb : ∀ c ∈ b, c ≠ 0) :
    ∀ c ∈ P ++ (b ++ v), c ≠ 0 := by
  rw [List.forall_mem_append, List.forall_mem_append] at hl ⊢
  exact ⟨hl.1, hb, hl.2.2⟩

/-- One round, where `a` stands behind `u` and the next search finds what stands behind `b`. -/
theorem eachFound_round {u v : Bytes} (rounds : Nat) (hnext : Finds next a) (hbody : Puts body a b)
    (h : Stores s (P ++ (u ++ (a ++ v)))) (hl : ∀ c ∈ P ++ (u ++ (b ++ v)), c ≠ 0) (hclear : Clear a b v)
    (hfew : (P ++ (u ++ (b ++ v))).length + 16 < 2 ^ 32) (hsmall : P.length + u.length < 2 ^ 31) :
    ∃ s', Stores s' ((P ++ (u ++ b)) ++ v) ∧
      eachFound next body true (rounds + 1) (position (some (P.length + u.length))) s =
        eachFound next body true rounds (position ((firstAt a v).map ((P ++ (u ++ b)).length + ·))) s' := by
  have hpos : P.length + u.length = (P ++ u).length := List.length_append.symm
  rw [← List.append_assoc] at h hfew hl
  obtain ⟨s', hs', hr⟩ := hbody rounds s (P ++ u) v h hfew
  have hle : (P ++ u).length ≤ (P ++ u ++ (b ++ v)).length := by
    simp only [List.length_append]
    omega
  have hfound := hnext s' _ (P ++ u).length hr.toHolds.shows hl hle
  rw [List.drop_left, firstAt_append hclear, Option.map_map] at hfound
  have hshift : (((P ++ u).length + ·) ∘ (b.length + ·)) = fun i => (P ++ (u ++ b)).length + i := by
    funext i
    show (P ++ u).length + (b.length + i) = (P ++ (u ++ b)).length + i
    simp only [List.length_append]
    omega
  rw [hshift] at hfound
  refine ⟨s', by simpa only [List.append_assoc] using hr, ?_⟩
  rw [eachFound, hpos, position_of_lt (by omega), if_neg (by omega), Int.toNat_natCast, bind_ok hs', if_pos rfl,
    bind_ok hfound]

/-- A run of the loop over a text `P ++ w`, which searches from the end of `P` on: it comes to the last occurrence
just if the number of that is an `int32`. -/
theorem eachFound_cuts (hnext : Finds next a) (hbody : Puts body a b) (ha : a ≠ []) (hb : ∀ c ∈ b, c ≠ 0) (w : Bytes) :
    ∀ (P : Bytes) (rounds : Nat) (s : Str), Stores s (P ++ w) → (∀ c ∈ P ++ w, c ≠ 0) → Apart a b (cuts a w) →
      (P ++ b.intercalate (cuts a w)).length + 16 < 2 ^ 32 → w.length < rounds →
      (Becomes (eachFound next body true rounds (position ((firstAt a w).map (P.length + ·)))) s
        (P ++ b.intercalate (cuts a w)) ↔
      (a <:+: w → (P ++ b.intercalate (cuts a w).dropLast).length < 2 ^ 31)) := by
  refine @cuts_induction _ _ a (fun w ps => ∀ (P : Bytes) (rounds : Nat) (s : Str), Stores s (P ++ w) →
    (∀ c ∈ P ++ w, c ≠ 0) → Apart a b ps → (P ++ b.intercalate ps).length + 16 < 2 ^ 32 → w.length < rounds →
    (Becomes (eachFound next body true rounds (position ((firstAt a w).map (P.length + ·)))) s
      (P ++ b.intercalate ps) ↔ (a <:+: w → (P ++ b.intercalate ps.dropLast).length < 2 ^ 31))) ha ?_ ?_ w
  · intro w hnone P rounds s h _ _ _ hrounds
    obtain ⟨rounds, rfl⟩ := Nat.exists_eq_succ_of_ne_zero (Nat.ne_of_gt (Nat.lt_of_le_of_lt (Nat.zero_le _) hrounds))
    rw [firstAt_eq_none_iff.mpr hnone, List.intercalate_singleton]
    exact ⟨fun _ hin => absurd hin hnone, fun _ => ⟨s, rfl, h⟩⟩
  · intro u v hclear ih P rounds s h hl hapart hfew hrounds
    have hps := cuts_ne_nil ha v
    obtain ⟨hb', hapart⟩ := (apart_cons hps).mp hapart
    have hin : a <:+: u ++ (a ++ v) := ⟨u, v, List.append_assoc u a v⟩
    have hfirst := h.length_lt
    rw [intercalate_cuts ha] at hb'
    rw [List.intercalate_cons_of_ne_nil hps] at hfew ⊢
    rw [List.dropLast_cons_of_ne_nil hps, firstAt_of_clear hclear, Option.map_some]
    simp only [List.length_append] at hfirst hrounds
    obtain ⟨rounds, rfl⟩ := Nat.exists_eq_succ_of_ne_zero (Nat.ne_of_gt (Nat.lt_of_le_of_lt (Nat.zero_le _) hrounds))
    have hgoal : (a <:+: u ++ (a ++ v) → (P ++ b.intercalate (u :: (cuts a v).dropLast)).length < 2 ^ 31) ↔
        P.length + u.length < 2 ^ 31 ∧
          (a <:+: v → ((P ++ (u ++ b)) ++ b.intercalate (cuts a v).dropLast).length < 2 ^ 31) :=
      ⟨fun hlt => (length_cuts_lt ha).mp (hlt hin), fun hlt _ => (length_cuts_lt ha).mpr hlt⟩
    rw [hgoal]
    obtain hnow | hfar := Nat.lt_or_ge (P.length + u.length) (2 ^ 31)
    · have hshort : (P ++ (u ++ (b ++ v))).length + 16 < 2 ^ 32 := by
        simp only [List.length_append] at hfew ⊢
        obtain hle | hle := Nat.le_total a.length b.length
        · have hlonger := length_intercalate_le hle (cuts a v)
          rw [intercalate_cuts ha] at hlonger
          omega
        · omega
      have hnul : ∀ c ∈ P ++ (u ++ (b ++ v)), c ≠ 0 := by
        rw [← List.append_assoc] at hl ⊢
        exact clean_splice hl hb
      have hpos := List.length_pos_of_ne_nil ha
      obtain ⟨s', hs', hround⟩ := eachFound_round rounds hnext hbody h hnul hb' hshort hnow
      have hrest := ih (P ++ (u ++ b)) rounds s' hs' (by simpa only [List.append_assoc] using hnul) hapart
        (by simpa only [List.append_assoc] using hfew) (by omega)
      rw [Becomes, hround, ← List.append_assoc P (u ++ b)]
      exact ⟨fun hr => ⟨hnow, hrest.mp hr⟩, fun hlt => hrest.mpr hlt.2⟩
    · have hneg : position (some (P.length + u.length)) < 0 := (position_neg (by omega)).mpr hfar
      rw [Becomes, eachFound, if_pos hneg]
      refine ⟨fun ⟨s', hs', hr⟩ => ?_, fun hlt => absurd hlt.1 (Nat.not_lt.mpr hfar)⟩
      cases hs'
      have hsame := List.append_cancel_left (h.toHolds.inj hr.toHolds)
      rw [List.append_assoc] at hsame
      exact absurd (List.append_cancel_left hsame) (append_ne_of_clear ha hb')

/-- The whole loop, from its first search on. -/
theorem loop_cuts {pos rounds : Nat} (hnext : Finds next a) (hbody : Puts body a b) (ha : a ≠ []) (hb : ∀ c ∈ b, c ≠ 0)
    (h : Stores s l) (hl : ∀ c ∈ l, c ≠ 0) (hpos : pos ≤ l.length) (hapart : Apart a b (cuts a (l.drop pos)))
    (hfew : (l.take pos ++ b.intercalate (cuts a (l.drop pos))).length + 16 < 2 ^ 32) (hrounds : l.length < rounds) :
    Becomes (next pos >>= fun npos => eachFound next body true rounds npos) s
      (l.take pos ++ b.intercalate (cuts a (l.drop pos))) ↔
    (a <:+: l.drop pos → (l.take pos ++ b.intercalate (cuts a (l.drop pos)).dropLast).length < 2 ^ 31) := by
  have hsplit := List.take_append_drop pos l
  have hlen : (l.take pos).length = pos := List.length_take_of_le hpos
  have hloop := eachFound_cuts hnext hbody ha hb (l.drop pos) (l.take pos) rounds s (by rwa [hsplit])
    (by rwa [hsplit]) hapart hfew (by rw [List.length_drop]; omega)
  rw [hlen] at hloop
  rw [Becomes, bind_ok (hnext s l pos h.toHolds.shows hl hpos)]
  exact hloop

/-- All occurrences from `pos` on are removed, from left to right, just if the number of the last of them is
an `int32`. -/
theorem remove_all (mem : Nat → Nat → UInt8) {pos rounds : Nat} (h : Stores s l) (hl : ∀ b ∈ l, b ≠ 0)
    (ht : ∀ b ∈ t, b ≠ 0)
    (hne : t ≠ []) (hpos : pos ≤ l.length) (hrounds : l.length < rounds) :
    (Becomes (removeText mem rounds t t.length pos true) s (l.take pos ++ (cuts t (l.drop pos)).flatten) ↔
      (t <:+: l.drop pos → pos + (cuts t (l.drop pos)).dropLast.flatten.length < 2 ^ 31)) ∧
    ∀ c, t = [c] → (Becomes (removeChar mem rounds c pos true) s (l.take pos ++ (cuts t (l.drop pos)).flatten) ↔
      (t <:+: l.drop pos → pos + (cuts t (l.drop pos)).dropLast.flatten.length < 2 ^ 31)) := by
  have hshort : (cuts t (l.drop pos)).flatten.length ≤ (l.drop pos).length := by
    have hle := @length_intercalate_le _ [] t (Nat.zero_le _) (cuts t (l.drop pos))
    rwa [nil_intercalate, intercalate_cuts hne] at hle
  have hall : ∀ next, Finds next t → (Becomes (next pos >>= fun npos =>
      eachFound next (fun k npos => remove (mem k) npos t.length) true rounds npos) s
        (l.take pos ++ (cuts t (l.drop pos)).flatten) ↔
      (t <:+: l.drop pos → pos + (cuts t (l.drop pos)).dropLast.flatten.length < 2 ^ 31)) := by
    intro next hnext
    have hfew := h.length_lt
    have hloop := @loop_cuts s l t [] next _ pos rounds hnext (puts_remove mem t) hne nofun h hl hpos (apart_nil t _)
      (by rw [nil_intercalate, List.length_append, List.length_take_of_le hpos]
          rw [List.length_drop] at hshort
          omega) hrounds
    rw [nil_intercalate, nil_intercalate, List.length_append, List.length_take_of_le hpos] at hloop
    exact hloop
  refine ⟨hall (findText t) (finds_text ht), ?_⟩
  rintro c rfl
  exact hall (find c) (finds_char (ht c (List.mem_singleton.mpr rfl)))

theorem remove_all_ll : ∃ s s', Stores s (bytes "Hello allll") ∧
    removeText (fun _ _ => 7) 12 (bytes "ll") 2 3 true s = (.ok (), s') ∧ Stores s' (bytes "Hello a") := by
  obtain ⟨s, -, h⟩ := create_copy (fun _ => 7) empty (by decide : (bytes "Hello allll").length + 16 < 2 ^ 32)
  obtain ⟨s', hs', hr⟩ := (@remove_all s (bytes "Hello allll") (bytes "ll") (fun _ _ => 7) 3 12 h
    (by decide) (by decide)
    (by decide) (by decide) (by decide)).1.mpr (by decide)
  exact ⟨s, s', h, hs', hr⟩

/-- An occurrence at index 2³¹ is found at a negative number, and stays. -/
theorem not_remove_all : ¬∀ (s : Str) (l t : Bytes) (pos : Nat) (mem : Nat → Nat → UInt8), Stores s l →
    (∀ b ∈ l, b ≠ 0) → (∀ b ∈ t, b ≠ 0) → t ≠ [] → pos ≤ l.length →
      ∃ rounds, Becomes (removeText mem rounds t t.length pos true) s
        (l.take pos ++ (cuts t (l.drop pos)).flatten) := by
  intro hall
  obtain ⟨u, s, hlen, hmem, h⟩ := exists_long 97 [98] (by decide)
  have hlen' : (u ++ [98]).length = 2 ^ 31 + 1 := by rw [List.length_append, hlen, List.length_singleton]
  have hl : ∀ b ∈ u ++ [98], b ≠ 0 := by
    intro b hb
    rcases List.mem_append.mp hb with hb | hb
    · rw [hmem b hb]
      decide
    · rw [List.mem_singleton.mp hb]
      decide
  have hclear : Clear [98] u ([98] ++ []) := clear_singleton fun hin => absurd (hmem 98 hin) (by decide)
  obtain ⟨rounds, s', hs', hr⟩ := hall s (u ++ [98]) [98] 0 (fun _ _ => 7) h hl (by decide) (by decide) (Nat.zero_le _)
  have hfirst := firstAt_of_clear hclear
  have hfound := finds_text (t := [98]) (by decide) s _ 0 h.toHolds.shows hl (Nat.zero_le _)
  rw [List.drop_zero, show firstAt [98] (u ++ [98]) = some u.length from hfirst] at hfound
  have hneg : position (some (0 + u.length)) < 0 := (position_neg (by omega)).mpr (by omega)
  unfold removeText at hs'
  rw [bind_ok hfound] at hs'
  cases rounds with
  | zero => cases hs'
  | succ rounds =>
    rw [Option.map_some, eachFound, if_pos hneg] at hs'
    cases hs'
    have hsame := h.toHolds.inj hr.toHolds
    rw [List.take_zero, List.drop_zero, show cuts [98] (u ++ [98]) = [u, []] from
      (cuts_clear (by decide) hclear).trans (by rw [cuts_none (by decide)])] at hsame
    have hshort := congrArg List.length hsame
    rw [hlen'] at hshort
    simp only [List.nil_append, List.flatten_cons, List.flatten_nil, List.append_nil] at hshort
    omega

end Str

end Srl
