import Srl.StrCut

namespace Srl

open Cells Session

namespace Str

/-- The loop of `endsWith`, for `counter` characters that are left; it answers the counter that it stops with. -/
def endsLoop (estr : Bytes) : Nat → Nat → Nat → Call Nat
  | 0, _, _ => pure 0
  | counter + 1, p₁, p₂ => do
    let c₁ := estr.charAt p₁
    let c₂ ← read p₂
    if counter ≠ 0 ∧ c₁ = c₂ then endsLoop estr counter (p₁ - 1) (p₂ - 1) else pure counter

/-- `String::endsWith`, which takes the length of the C string `estr` as an `unsigned int`. -/
def endsWith (estr : Bytes) : Call Bool := do
  let p₁_len := estr.length % 2 ^ 32
  let p₂_len := (← get).string_length
  if p₁_len = 0 ∨ p₂_len < p₁_len ∨ p₂_len = 0 then pure false
  else
    let counter ← endsLoop estr p₁_len (p₁_len - 1) (p₂_len - 1)
    pure (counter = 0)

variable {s : Str} {l e t : Bytes} {c : UInt8} {i k : Nat}

/-- The loop comes to 0 if all characters but the first agree: the first one is compared, and not looked at. -/
theorem Shows.endsLoop_eq (h : Shows s l) (e : Bytes) (hk : i + k < l.length) :
    ∃ n, endsLoop e (k + 1) k (i + k) s = (.ok n, s) ∧
      (n = 0 ↔ ∀ j < k, e.charAt (j + 1) = l.charAt (i + (j + 1))) := by
  induction k with
  | zero =>
    rw [endsLoop, bind_ok (h.read_eq (Nat.le_of_lt hk)), if_neg fun hgo => hgo.1 rfl]
    exact ⟨0, rfl, fun _ j hj => absurd hj (Nat.not_lt_zero j), fun _ => rfl⟩
  | succ k ih =>
    rw [endsLoop, bind_ok (h.read_eq (Nat.le_of_lt hk))]
    by_cases hc : e.charAt (k + 1) = l.charAt (i + (k + 1))
    · obtain ⟨n, hn, hzero⟩ := ih (by omega)
      rw [if_pos ⟨Nat.succ_ne_zero k, hc⟩]
      refine ⟨n, hn, hzero.trans ⟨fun hall j hj => ?_, fun hall j hj => hall j (by omega)⟩⟩
      obtain hlt | rfl := Nat.lt_or_eq_of_le (Nat.le_of_lt_succ hj)
      · exact hall j hlt
      · exact hc
    · rw [if_neg fun hgo => hc hgo.2]
      exact ⟨k + 1, rfl, fun hzero => absurd hzero (Nat.succ_ne_zero k),
        fun hall => absurd (hall k (Nat.lt_succ_self k)) hc⟩

theorem charAt_take {n : Nat} (l : Bytes) (hi : i < n) : Bytes.charAt (l.take n) i = l.charAt i := by
  rw [Bytes.charAt, Bytes.charAt, List.getD_eq_getElem?_getD, List.getD_eq_getElem?_getD, List.getElem?_take_of_lt hi]

theorem suffix_iff_charAt (hi : i + (t.length + 1) = l.length) :
    t <:+ l ↔ ∀ j < t.length, Bytes.charAt t j = l.charAt (i + (j + 1)) := by
  rw [List.suffix_iff_getElem]
  constructor
  · rintro ⟨_, hall⟩ j hj
    have hsame := hall j hj
    rw [Bytes.charAt_of_lt hj, Bytes.charAt_of_lt (by omega), ← hsame]
    congr 1
    omega
  · intro hall
    refine ⟨by omega, fun j hj => ?_⟩
    have hsame := hall j hj
    rw [Bytes.charAt_of_lt hj, Bytes.charAt_of_lt (by omega)] at hsame
    rw [hsame]
    congr 1
    omega

/-- What `endsWith` answers: whether all characters but the first agree. -/
theorem Shows.endsWith_eq (h : Shows s l) (e : Bytes) : ∃ b, endsWith e s = (.ok b, s) ∧
    (b = true ↔ ∃ c t, e.take (e.length % 2 ^ 32) = c :: t ∧ t.length < l.length ∧ t <:+ l) := by
  have hlen := h.length_eq
  have htake : (e.take (e.length % 2 ^ 32)).length = e.length % 2 ^ 32 :=
    List.length_take_of_le (Nat.mod_le e.length (2 ^ 32))
  unfold endsWith
  rw [get_bind]
  cases he : e.take (e.length % 2 ^ 32) with
  | nil =>
    rw [he, List.length_nil] at htake
    rw [if_pos (.inl htake.symm)]
    exact ⟨false, rfl, fun hb => absurd hb Bool.false_ne_true,
      fun ⟨c, t, hct, _⟩ => absurd hct (List.cons_ne_nil c t).symm⟩
  | cons c t =>
    rw [he, List.length_cons] at htake
    rw [hlen, ← htake]
    by_cases hshort : t.length < l.length
    · obtain ⟨i, hi⟩ : ∃ i, i + (t.length + 1) = l.length := ⟨l.length - (t.length + 1), by omega⟩
      obtain ⟨n, hn, hzero⟩ := h.endsLoop_eq e (by omega : i + t.length < l.length)
      rw [if_neg (by omega), show t.length + 1 - 1 = t.length from rfl, show l.length - 1 = i + t.length by omega,
        bind_ok hn]
      refine ⟨decide (n = 0), rfl, ?_⟩
      have hchars : ∀ j < t.length, e.charAt (j + 1) = Bytes.charAt t j := fun j hj => by
        rw [← charAt_take e (by omega : j + 1 < e.length % 2 ^ 32), he]
        rfl
      rw [decide_eq_true_eq, hzero]
      constructor
      · intro hall
        exact ⟨c, t, rfl, hshort, (suffix_iff_charAt hi).mpr fun j hj => (hchars j hj).symm.trans (hall j hj)⟩
      · rintro ⟨c', t', hct, -, hsuffix⟩
        cases hct
        exact fun j hj => (hchars j hj).trans ((suffix_iff_charAt hi).mp hsuffix j hj)
    · rw [if_pos (by omega)]
      refine ⟨false, rfl, fun hb => absurd hb Bool.false_ne_true, ?_⟩
      rintro ⟨c', t', hct, hlt, -⟩
      cases hct
      exact absurd hlt hshort

theorem cons_suffix_iff (h : t <:+ l) (hlt : t.length < l.length) :
    c :: t <:+ l ↔ l.charAt (l.length - (t.length + 1)) = c := by
  obtain ⟨u, rfl⟩ := h
  rw [List.length_append] at hlt
  have hu : u ≠ [] := List.ne_nil_of_length_pos (by omega)
  obtain ⟨v, d, rfl⟩ := (List.eq_nil_or_concat u).resolve_left hu
  rw [List.concat_eq_append] at hlt ⊢
  have hat : (v ++ [d] ++ t).length - (t.length + 1) = v.length := by
    simp only [List.length_append, List.length_singleton]
    omega
  rw [hat, List.append_assoc, List.singleton_append, Bytes.charAt_front]
  constructor
  · intro hend
    have hsuffix := List.suffix_of_suffix_length_le hend (List.suffix_append v (d :: t)) (Nat.le_refl _)
    exact (List.cons.inj (hsuffix.eq_of_length rfl)).1.symm
  · rintro rfl
    exact List.suffix_append v _

/-- Where the rest of what is compared agrees with the end of a longer text, so does its first character. -/
def EndsRight (e l : Bytes) : Prop :=
  ∀ c t, e.take (e.length % 2 ^ 32) = c :: t → t.length < l.length → t <:+ l →
    e.length < 2 ^ 32 ∧ l.charAt (l.length - e.length) = c

/-- `endsWith` is right just if it does not go by the first character. -/
theorem endsWith_iff (h : Stores s l) (he : e ≠ []) :
    (∃ b, endsWith e s = (.ok b, s) ∧ (b = true ↔ e <:+ l)) ↔ EndsRight e l := by
  obtain ⟨b, hb, hanswer⟩ := h.toHolds.shows.endsWith_eq e
  have hfew := h.length_lt
  have hcode : (∃ b, endsWith e s = (.ok b, s) ∧ (b = true ↔ e <:+ l)) ↔ (b = true ↔ e <:+ l) := by
    refine ⟨fun ⟨b', hb', hright⟩ => ?_, fun hright => ⟨b, hb, hright⟩⟩
    rw [hb] at hb'
    cases hb'
    exact hright
  have hwhole : e.length < 2 ^ 32 → e.take (e.length % 2 ^ 32) = e := fun hlt => by
    rw [Nat.mod_eq_of_lt hlt, List.take_length]
  rw [hcode, hanswer]
  constructor
  · intro hright c t hct hlt hsuffix
    have hend := hright.mp ⟨c, t, hct, hlt, hsuffix⟩
    have hle := hend.length_le
    rw [hwhole (by omega)] at hct
    subst hct
    exact ⟨by omega, (cons_suffix_iff hsuffix hlt).mp hend⟩
  · intro hright
    constructor
    · rintro ⟨c, t, hct, hlt, hsuffix⟩
      obtain ⟨hsmall, hfirst⟩ := hright c t hct hlt hsuffix
      rw [hwhole hsmall] at hct
      subst hct
      exact (cons_suffix_iff hsuffix hlt).mpr hfirst
    · intro hend
      have hle := hend.length_le
      rw [hwhole (by omega)]
      obtain ⟨c, t, rfl⟩ := List.exists_cons_of_ne_nil he
      rw [List.length_cons] at hle
      exact ⟨c, t, rfl, hle, (List.suffix_cons c t).trans hend⟩

theorem endsWith_iff_happy : ∃ s, Stores s (bytes "be happy") ∧
    ∃ b, endsWith (bytes "happy") s = (.ok b, s) ∧ (b = true ↔ bytes "happy" <:+ bytes "be happy") := by
  obtain ⟨s, -, h⟩ := create_copy (fun _ => 7) empty (by decide : (bytes "be happy").length + 16 < 2 ^ 32)
  refine ⟨s, h, (endsWith_iff h (by decide)).mpr ?_⟩
  rintro c t hct - -
  cases hct
  decide

/-- A text that differs in its first character counts as an end. -/
theorem not_endsWith_iff : ¬∀ (s : Str) (l e : Bytes), Stores s l → (∀ c ∈ l, c ≠ 0) → (∀ c ∈ e, c ≠ 0) → e ≠ [] →
    ∃ b, endsWith e s = (.ok b, s) ∧ (b = true ↔ e <:+ l) := by
  intro hall
  obtain ⟨s, -, h⟩ := create_copy (fun _ => 7) empty (by decide : (bytes "xb").length + 16 < 2 ^ 32)
  have hright := (endsWith_iff h (by decide)).mp
    (hall s (bytes "xb") (bytes "ab") h (by decide) (by decide) (by decide))
  exact absurd (hright 97 (bytes "b") (by decide) (by decide) (by decide)).2 (by decide)

end Str

end Srl
