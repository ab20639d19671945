import Mathlib.Data.List.Infix

namespace Occurrences

variable {α : Type*} [DecidableEq α] {t u l v : List α} {i : Nat}

/-- The first place where `t` stands in a list. -/
def firstAt (t l : List α) : Option Nat := l.tails.findIdx? (t.isPrefixOf ·)

theorem firstAt_eq_some_iff : firstAt t l = some i ↔ i ≤ l.length ∧ t <+: l.drop i ∧ ∀ j < i, ¬t <+: l.drop j := by
  rw [firstAt, List.findIdx?_eq_some_iff_getElem]
  simp only [List.length_tails, List.getElem_tails, Nat.lt_succ_iff, List.isPrefixOf_iff_prefix]
  exact ⟨fun ⟨h, hi, hj⟩ => ⟨h, hi, hj⟩, fun ⟨h, hi, hj⟩ => ⟨h, hi, hj⟩⟩

theorem firstAt_eq_none_iff : firstAt t l = none ↔ ¬t <:+: l := by
  rw [firstAt, List.findIdx?_eq_none_iff, List.infix_iff_prefix_suffix]
  constructor
  · rintro h ⟨v, hv, hsuffix⟩
    have hfalse := h v ((List.mem_tails _ _).mpr hsuffix)
    rw [List.isPrefixOf_iff_prefix.mpr hv] at hfalse
    cases hfalse
  · intro h v hv
    by_contra htrue
    exact h ⟨v, List.isPrefixOf_iff_prefix.mp (by simpa using htrue), (List.mem_tails _ _).mp hv⟩

/-- What stands before the first place and behind it. -/
theorem firstAt_split (h : firstAt t l = some i) : ∃ x v, l = x ++ (t ++ v) ∧ x.length = i := by
  obtain ⟨hi, ⟨v, hv⟩, -⟩ := firstAt_eq_some_iff.mp h
  refine ⟨l.take i, v, ?_, by rw [List.length_take]; omega⟩
  rw [hv, List.take_append_drop]

theorem firstAt_cons (a : α) : firstAt t (a :: l) = if t <+: a :: l then some 0 else (firstAt t l).map (· + 1) := by
  rw [firstAt, List.tails_cons, List.findIdx?_cons]
  simp only [List.isPrefixOf_iff_prefix]
  rfl

/-- `t` starts at no place of the front part. -/
def Clear (t u v : List α) : Prop := ∀ k < u.length, ¬t <+: (u ++ v).drop k

instance : Decidable (Clear t u v) := inferInstanceAs (Decidable (∀ k < u.length, ¬t <+: (u ++ v).drop k))

theorem firstAt_append (h : Clear t u v) : firstAt t (u ++ v) = (firstAt t v).map (u.length + ·) := by
  induction u with
  | nil => simp
  | cons a u ih =>
    have hnot : ¬t <+: a :: (u ++ v) := h 0 (Nat.zero_lt_succ _)
    have hrest : Clear t u v := fun k hk => h (k + 1) (Nat.succ_lt_succ hk)
    rw [List.cons_append, firstAt_cons, if_neg hnot, ih hrest, Option.map_map, List.length_cons]
    congr 1
    funext i
    show u.length + i + 1 = u.length + 1 + i
    omega

theorem clear_of_firstAt (h : firstAt t (u ++ v) = some u.length) : Clear t u v :=
  (firstAt_eq_some_iff.mp h).2.2

theorem firstAt_of_clear (h : Clear t u (t ++ v)) : firstAt t (u ++ (t ++ v)) = some u.length := by
  refine firstAt_eq_some_iff.mpr ⟨by rw [List.length_append]; omega, ?_, h⟩
  rw [List.drop_left]
  exact List.prefix_append t v

/-- The rounds in which a list is cut at the places where `t` stands, each behind the one before. -/
def cutsUpTo (t : List α) : Nat → List α → List (List α)
  | 0, l => [l]
  | n + 1, l =>
    match firstAt t l with
    | some i => l.take i :: cutsUpTo t n (l.drop (i + t.length))
    | none => [l]

/-- The pieces of a list between the places where `t` stands, from left to right without overlap. -/
def cuts (t l : List α) : List (List α) := cutsUpTo t l.length l

theorem cutsUpTo_some {n : Nat} (h : firstAt t l = some i) :
    cutsUpTo t (n + 1) l = l.take i :: cutsUpTo t n (l.drop (i + t.length)) := by
  rw [cutsUpTo, h]

theorem cutsUpTo_none {n : Nat} (h : firstAt t l = none) : cutsUpTo t n l = [l] := by
  cases n with
  | zero => rfl
  | succ n => rw [cutsUpTo, h]

theorem cutsUpTo_of_le (ht : t ≠ []) {n m : Nat} (hn : l.length ≤ n) (hm : l.length ≤ m) :
    cutsUpTo t n l = cutsUpTo t m l := by
  have hpos := List.length_pos_of_ne_nil ht
  induction n generalizing m l with
  | zero =>
    have hnil : l = [] := List.eq_nil_of_length_eq_zero (by omega)
    have hnone : firstAt t l = none := by
      rw [firstAt_eq_none_iff, hnil, List.infix_nil]
      exact ht
    rw [cutsUpTo_none hnone, cutsUpTo_none hnone]
  | succ n ih =>
    cases h : firstAt t l with
    | none => rw [cutsUpTo_none h, cutsUpTo_none h]
    | some i =>
      obtain ⟨x, v, rfl, rfl⟩ := firstAt_split h
      simp only [List.length_append] at hn hm
      obtain ⟨m, rfl⟩ : ∃ k, m = k + 1 := ⟨m - 1, by omega⟩
      rw [cutsUpTo_some h, cutsUpTo_some h, ih (m := m)]
      · simp only [List.length_drop, List.length_append]
        omega
      · simp only [List.length_drop, List.length_append]
        omega

theorem cuts_clear (ht : t ≠ []) (h : Clear t u (t ++ v)) : cuts t (u ++ (t ++ v)) = u :: cuts t v := by
  have hpos := List.length_pos_of_ne_nil ht
  have hlen : (u ++ (t ++ v)).length = u.length + t.length + v.length := by
    simp only [List.length_append]
    omega
  have hdrop : (u ++ (t ++ v)).drop (u.length + t.length) = v := by
    rw [← List.append_assoc, ← List.length_append, List.drop_left]
  obtain ⟨n, hn⟩ : ∃ n, u.length + t.length + v.length = n + 1 := ⟨u.length + t.length + v.length - 1, by omega⟩
  rw [cuts, hlen, hn, cutsUpTo_some (firstAt_of_clear h), List.take_left, hdrop]
  exact congrArg _ (cutsUpTo_of_le ht (by omega) (Nat.le_refl _))

theorem cuts_none (h : ¬t <:+: l) : cuts t l = [l] := cutsUpTo_none (firstAt_eq_none_iff.mpr h)

/-- What holds of a list without `t`, and goes from what stands behind `t` to the whole, holds of all lists. -/
theorem cuts_induction {P : List α → List (List α) → Prop} (ht : t ≠ []) (hlast : ∀ l, ¬t <:+: l → P l [l])
    (hcut : ∀ u v, Clear t u (t ++ v) → P v (cuts t v) → P (u ++ (t ++ v)) (u :: cuts t v)) (l : List α) :
    P l (cuts t l) := by
  have hpos := List.length_pos_of_ne_nil ht
  obtain ⟨n, hn⟩ : ∃ n, l.length ≤ n := ⟨_, Nat.le_refl _⟩
  induction n generalizing l with
  | zero =>
    have hnone : ¬t <:+: l := by
      rw [List.eq_nil_of_length_eq_zero (Nat.le_zero.mp hn), List.infix_nil]
      exact ht
    rw [cuts_none hnone]
    exact hlast l hnone
  | succ n ih =>
    cases h : firstAt t l with
    | none =>
      have hnone := firstAt_eq_none_iff.mp h
      rw [cuts_none hnone]
      exact hlast l hnone
    | some i =>
      obtain ⟨x, v, rfl, rfl⟩ := firstAt_split h
      have hclear := clear_of_firstAt h
      simp only [List.length_append] at hn
      rw [cuts_clear ht hclear]
      exact hcut x v hclear (ih v (by omega))

theorem cuts_ne_nil (ht : t ≠ []) (l : List α) : cuts t l ≠ [] :=
  @cuts_induction α _ t (fun _ ps => ps ≠ []) ht (fun _ _ => List.cons_ne_nil _ _)
    (fun _ _ _ _ => List.cons_ne_nil _ _) l

/-- The pieces with `t` between them are the list. -/
theorem intercalate_cuts (ht : t ≠ []) (l : List α) : t.intercalate (cuts t l) = l := by
  refine @cuts_induction α _ t (fun l ps => t.intercalate ps = l) ht (fun l _ => List.intercalate_singleton) ?_ l
  intro u v _ ih
  rw [List.intercalate_cons_of_ne_nil (cuts_ne_nil ht v), ih, List.append_assoc]

theorem cuts_eq_singleton (ht : t ≠ []) : cuts t l = [l] ↔ ¬t <:+: l := by
  refine ⟨fun h hin => ?_, cuts_none⟩
  cases hfirst : firstAt t l with
  | none => exact firstAt_eq_none_iff.mp hfirst hin
  | some i =>
    obtain ⟨x, v, rfl, rfl⟩ := firstAt_split hfirst
    rw [cuts_clear ht (clear_of_firstAt hfirst)] at h
    exact cuts_ne_nil ht v (List.cons.inj h).2

theorem dropLast_cuts_ne_nil (ht : t ≠ []) (h : t <:+: l) : (cuts t l).dropLast ≠ [] := by
  intro hnil
  obtain ⟨p, hp⟩ : ∃ p, cuts t l = [p] := by
    have hlen := congrArg List.length hnil
    have hpos := List.length_pos_of_ne_nil (cuts_ne_nil ht l)
    rw [List.length_dropLast, List.length_nil] at hlen
    exact List.length_eq_one_iff.mp (by omega)
  have hall := intercalate_cuts ht l
  rw [hp, List.intercalate_singleton] at hall
  rw [hall] at hp
  exact (cuts_eq_singleton ht).mp hp h

/-- The last `t` of a list stands below a bound if the first does, and the last of those behind it does. -/
theorem length_cuts_lt {p b u v : List α} {n : Nat} (ht : t ≠ []) :
    (p ++ b.intercalate (u :: (cuts t v).dropLast)).length < n ↔ p.length + u.length < n ∧
      (t <:+: v → ((p ++ (u ++ b)) ++ b.intercalate (cuts t v).dropLast).length < n) := by
  by_cases hnil : (cuts t v).dropLast = []
  · have hnone : ¬t <:+: v := fun hv => dropLast_cuts_ne_nil ht hv hnil
    rw [hnil, List.intercalate_singleton, List.length_append]
    exact ⟨fun hlt => ⟨hlt, fun hv => absurd hv hnone⟩, fun hlt => hlt.1⟩
  · have hsome : t <:+: v := by
      by_contra hnone
      rw [cuts_none hnone] at hnil
      exact hnil rfl
    rw [List.intercalate_cons_of_ne_nil hnil]
    simp only [List.length_append]
    exact ⟨fun hlt => ⟨by omega, fun _ => by omega⟩, fun hlt => by have := hlt.2 hsome; omega⟩

omit [DecidableEq α] in
theorem nil_intercalate (ps : List (List α)) : [].intercalate ps = ps.flatten := by
  induction ps with
  | nil => rfl
  | cons p ps ih =>
    by_cases hnil : ps = []
    · rw [hnil, List.intercalate_singleton]
      simp
    · rw [List.intercalate_cons_of_ne_nil hnil, ih, List.append_nil, List.flatten_cons]

omit [DecidableEq α] in
theorem length_intercalate_le {b : List α} (h : t.length ≤ b.length) (ps : List (List α)) :
    (t.intercalate ps).length ≤ (b.intercalate ps).length := by
  induction ps with
  | nil => exact Nat.le_refl _
  | cons p ps ih =>
    by_cases hnil : ps = []
    · rw [hnil, List.intercalate_singleton, List.intercalate_singleton]
    · rw [List.intercalate_cons_of_ne_nil hnil, List.intercalate_cons_of_ne_nil hnil]
      simp only [List.length_append]
      omega

theorem length_intercalate_lt {b : List α} (h : b.length < t.length) (hin : t <:+: l) :
    (b.intercalate (cuts t l)).length < l.length := by
  have ht : t ≠ [] := List.ne_nil_of_length_pos (Nat.lt_of_le_of_lt (Nat.zero_le _) h)
  cases hfirst : firstAt t l with
  | none => exact absurd hin (firstAt_eq_none_iff.mp hfirst)
  | some i =>
    obtain ⟨u, v, rfl, rfl⟩ := firstAt_split hfirst
    have hrest := length_intercalate_le (Nat.le_of_lt h) (cuts t v)
    rw [intercalate_cuts ht] at hrest
    rw [cuts_clear ht (clear_of_firstAt hfirst), List.intercalate_cons_of_ne_nil (cuts_ne_nil ht v)]
    simp only [List.length_append]
    omega

/-- The pieces of a shorter list, with a shorter list between them, do not make up what `t` stands in front of. -/
theorem append_ne_of_clear {b : List α} (ht : t ≠ []) (h : Clear t b v) : t ++ v ≠ b ++ b.intercalate (cuts t v) := by
  intro heq
  have hpos := List.length_pos_of_ne_nil ht
  have hlen := congrArg List.length heq
  rw [List.length_append, List.length_append] at hlen
  obtain hlt | hle := Nat.lt_or_ge b.length t.length
  · have hshort := length_intercalate_le (Nat.le_of_lt hlt) (cuts t v)
    rw [intercalate_cuts ht] at hshort
    omega
  · have hpre : t <+: b := List.prefix_of_prefix_length_le (List.prefix_append t v) (heq ▸ List.prefix_append b _) hle
    exact h 0 (by omega) (hpre.trans (List.prefix_append b v))

omit [DecidableEq α] in
/-- Whether `t` starts in front of itself does not depend on what follows. -/
theorem Clear.extend {v' : List α} (h : Clear t u (t ++ v)) : Clear t u (t ++ v') := by
  intro k hk hp
  refine h k hk ?_
  have hle : k ≤ (u ++ t).length := by
    rw [List.length_append]
    omega
  have hlen : t.length ≤ ((u ++ t).drop k).length := by
    rw [List.length_drop, List.length_append]
    omega
  rw [← List.append_assoc, List.drop_append_of_le_length hle] at hp ⊢
  exact (List.prefix_of_prefix_length_le hp (List.prefix_append _ _) hlen).trans (List.prefix_append _ _)

omit [DecidableEq α] in
theorem power_swap (m : Nat) (x v : List α) :
    (List.replicate m x).flatten ++ (x ++ v) = x ++ ((List.replicate m x).flatten ++ v) := by
  have hends : (List.replicate m x).flatten ++ x = x ++ (List.replicate m x).flatten := by
    rw [← List.flatten_cons, ← List.replicate_succ, List.replicate_succ', List.flatten_append, List.flatten_singleton]
  rw [← List.append_assoc, hends, List.append_assoc]

omit [DecidableEq α] in
/-- What stands in front of itself behind a power of `x` stands so behind `x`. -/
theorem prefix_of_power {x : List α} {m : Nat} (hm : m ≠ 0) (hx : x ≠ [])
    (h : t <+: (List.replicate m x).flatten ++ t) : t <+: x ++ t := by
  have hlen : ∀ n, (List.replicate n x).flatten.length = n * x.length := fun n => by
    rw [List.length_flatten, List.map_replicate, List.sum_replicate_nat]
  have hpowers : ∀ k, t <+: (List.replicate (m * k) x).flatten ++ t := by
    intro k
    induction k with
    | zero => exact List.prefix_refl t
    | succ k ih =>
      rw [Nat.mul_succ, Nat.add_comm, ← List.replicate_append_replicate, List.flatten_append, List.append_assoc]
      exact h.trans ((List.prefix_append_right_inj _).mpr ih)
  have hmul : t.length ≤ (List.replicate (m * t.length) x).flatten.length := by
    have hxlen := List.length_pos_of_ne_nil hx
    rw [hlen]
    calc t.length = 1 * t.length * 1 := by omega
      _ ≤ m * t.length * x.length := Nat.mul_le_mul (Nat.mul_le_mul_right _ (Nat.pos_of_ne_zero hm)) hxlen
  have hpower : t <+: (List.replicate (m * t.length) x).flatten :=
    List.prefix_of_prefix_length_le (hpowers t.length) (List.prefix_append _ _) hmul
  have hbehind : x ++ t <+: (List.replicate (m * t.length + 1) x).flatten := by
    rw [List.replicate_succ, List.flatten_cons]
    exact (List.prefix_append_right_inj x).mpr hpower
  refine List.prefix_of_prefix_length_le (hpower.trans ?_) hbehind (by rw [List.length_append]; omega)
  rw [List.replicate_succ', List.flatten_append]
  exact List.prefix_append _ _

omit [DecidableEq α] in
/-- A list that starts nowhere in `x` in front of itself does not stand behind a power of `x`. -/
theorem Clear.power_ne {x y w w' : List α} {m : Nat} (h : Clear t x (t ++ y)) (hx : x ≠ []) (hm : m ≠ 0) :
    (List.replicate m x).flatten ++ (x ++ (t ++ w)) ≠ x ++ (t ++ w') := by
  intro heq
  rw [power_swap] at heq
  have hpower : t <+: (List.replicate m x).flatten ++ (t ++ w) := List.append_cancel_left heq ▸ List.prefix_append t _
  rw [← List.append_assoc] at hpower
  have hself : t <+: (List.replicate m x).flatten ++ t :=
    List.prefix_of_prefix_length_le hpower (List.prefix_append _ _) (by rw [List.length_append]; omega)
  have hstart := (prefix_of_power hm hx hself).trans (List.prefix_append (x ++ t) y)
  rw [List.append_assoc] at hstart
  exact h 0 (List.length_pos_of_ne_nil hx) hstart

/-- `t` starts nowhere in a `b` that stands between the first pieces and the rest of the list. -/
def Apart (t b : List α) : List (List α) → Prop
  | _ :: p :: ps => Clear t b (t.intercalate (p :: ps)) ∧ Apart t b (p :: ps)
  | _ => True

instance decidableApart (t b : List α) : ∀ ps, Decidable (Apart t b ps)
  | [] => isTrue trivial
  | [_] => isTrue trivial
  | _ :: p :: ps => @instDecidableAnd _ _ _ (decidableApart t b (p :: ps))

omit [DecidableEq α] in
theorem apart_cons {b p : List α} {ps : List (List α)} (hps : ps ≠ []) :
    Apart t b (p :: ps) ↔ Clear t b (t.intercalate ps) ∧ Apart t b ps := by
  cases ps with
  | nil => exact absurd rfl hps
  | cons q ps => exact Iff.rfl

omit [DecidableEq α] in
theorem apart_nil (t : List α) (ps : List (List α)) : Apart t [] ps := by
  induction ps with
  | nil => trivial
  | cons p ps ih =>
    by_cases hnil : ps = []
    · rw [hnil]
      trivial
    · exact (apart_cons hnil).mpr ⟨fun k hk => absurd hk (Nat.not_lt_zero _), ih⟩

/-- One cell is found where it first stands. -/
theorem firstAt_singleton (a : α) (l : List α) : firstAt [a] l = l.findIdx? (· = a) := by
  induction l with
  | nil => rfl
  | cons b l ih =>
    rw [firstAt_cons, List.findIdx?_cons, ih]
    by_cases hab : b = a
    · subst hab
      rw [if_pos (List.cons_prefix_cons.mpr ⟨rfl, List.nil_prefix⟩), if_pos (decide_eq_true rfl)]
    · rw [if_neg fun h => hab (List.cons_prefix_cons.mp h).1.symm, if_neg (by simpa using hab)]

omit [DecidableEq α] in
theorem clear_singleton {a : α} (h : a ∉ u) : Clear [a] u v := by
  intro k hk hp
  rw [List.drop_append_of_le_length (Nat.le_of_lt hk), List.drop_eq_getElem_cons hk, List.cons_append] at hp
  exact h ((List.cons_prefix_cons.mp hp).1 ▸ List.getElem_mem hk)

omit [DecidableEq α] in
/-- A delimiter of joined pieces stands between two of them or in one. -/
theorem count_intercalate [BEq α] [LawfulBEq α] (a : α) (ps : List (List α)) (hps : ps ≠ []) :
    ([a].intercalate ps).count a + 1 = ps.length + ps.flatten.count a := by
  induction ps with
  | nil => exact absurd rfl hps
  | cons p ps ih =>
    by_cases hnil : ps = []
    · rw [hnil, List.intercalate_singleton, List.length_singleton, List.flatten_singleton, Nat.add_comm]
    · have hrest := ih hnil
      rw [List.intercalate_cons_of_ne_nil hnil, List.count_append, List.count_append, List.count_singleton_self,
        List.length_cons, List.flatten_cons, List.count_append]
      omega

omit [DecidableEq α] in
/-- Behind an empty piece nothing is left just if it is the last. -/
theorem intercalate_drop_eq_nil_iff {a : α} {ps : List (List α)} (h : ps[i]? = some []) :
    [a].intercalate (ps.drop i) = [] ↔ i + 1 = ps.length := by
  obtain ⟨hlt, hi⟩ := List.getElem?_eq_some_iff.mp h
  rw [List.drop_eq_getElem_cons hlt, hi]
  by_cases hend : ps.drop (i + 1) = []
  · have hle := List.drop_eq_nil_iff.mp hend
    rw [hend, List.intercalate_singleton]
    exact ⟨fun _ => by omega, fun _ => rfl⟩
  · have hgt := List.drop_eq_nil_iff.not.mp hend
    rw [List.intercalate_cons_of_ne_nil hend]
    exact ⟨fun he => absurd he (by simp), fun he => by omega⟩

omit [DecidableEq α] in
theorem length_splitOn [BEq α] [LawfulBEq α] (a : α) (l : List α) : (l.splitOn a).length = l.count a + 1 := by
  induction l with
  | nil => rfl
  | cons b l ih =>
    rw [List.splitOn_cons_eq_if_modifyHead]
    by_cases hab : (b == a) = true
    · rw [if_pos hab, List.length_cons, ih, eq_of_beq hab, List.count_cons_self]
    · rw [if_neg hab, List.length_modifyHead, ih, List.count_cons_of_ne (by simpa using hab)]

omit [DecidableEq α] in
theorem not_mem_splitOn [BEq α] [LawfulBEq α] (a : α) (l : List α) {p : List α} (hp : p ∈ l.splitOn a) : a ∉ p := by
  have hcount := count_intercalate a (l.splitOn a) (List.splitOn_ne_nil a l)
  rw [List.intercalate_splitOn, length_splitOn] at hcount
  have hzero : (l.splitOn a).flatten.count a = 0 := by omega
  exact fun ha => List.count_eq_zero.mp hzero (List.mem_flatten_of_mem hp ha)

omit [DecidableEq α] in
theorem mem_of_mem_splitOn [BEq α] {a b : α} {l p : List α} (hp : p ∈ l.splitOn a) (hb : b ∈ p) : b ∈ l := by
  induction l generalizing p with
  | nil =>
    rw [List.mem_singleton.mp hp] at hb
    cases hb
  | cons c l ih =>
    rw [List.splitOn_cons_eq_if_modifyHead] at hp
    split at hp
    next =>
      rcases List.mem_cons.mp hp with rfl | hp
      · cases hb
      · exact List.mem_cons_of_mem _ (ih hp hb)
    next =>
      obtain ⟨q, qs, hq⟩ := List.exists_cons_of_ne_nil (List.splitOn_ne_nil a l)
      rw [hq] at hp
      rcases List.mem_cons.mp hp with rfl | hp
      · rcases List.mem_cons.mp hb with rfl | hb
        · exact List.mem_cons_self
        · exact List.mem_cons_of_mem _ (ih (hq ▸ List.mem_cons_self) hb)
      · exact List.mem_cons_of_mem _ (ih (hq ▸ List.mem_cons_of_mem _ hp) hb)

omit [DecidableEq α] in
theorem intercalate_eq_iff [BEq α] [LawfulBEq α] {a : α} {l : List α} {ps : List (List α)}
    (hlen : ps.length = l.count a + 1) : [a].intercalate ps = l ↔ ps = l.splitOn a := by
  have hps : ps ≠ [] := List.ne_nil_of_length_eq_add_one hlen
  constructor
  · intro h
    have hcount := count_intercalate a ps hps
    rw [h, hlen] at hcount
    have hzero : ps.flatten.count a = 0 := by omega
    have hnone : ∀ p ∈ ps, a ∉ p := fun p hp ha => List.count_eq_zero.mp hzero (List.mem_flatten_of_mem hp ha)
    rw [← h, List.splitOn_intercalate a hnone hps]
  · rintro rfl
    exact List.intercalate_splitOn a

/-- The last place below `n` where `t` stands in a list. -/
def lastAt (t l : List α) : Nat → Option Nat
  | 0 => none
  | n + 1 => if t <+: l.drop n then some n else lastAt t l n

theorem lastAt_eq_none_iff {n : Nat} : lastAt t l n = none ↔ ∀ j < n, ¬t <+: l.drop j := by
  induction n with
  | zero => simp [lastAt]
  | succ n ih =>
    rw [lastAt, Nat.forall_lt_succ_right]
    split
    next h => simp [h]
    next h => simp [h, ih]

theorem lastAt_eq_some_iff {n : Nat} :
    lastAt t l n = some i ↔ i < n ∧ t <+: l.drop i ∧ ∀ j < n, i < j → ¬t <+: l.drop j := by
  induction n with
  | zero => simp [lastAt]
  | succ n ih =>
    rw [lastAt]
    split
    next h =>
      constructor
      · intro hsome
        obtain rfl := Option.some.inj hsome
        exact ⟨Nat.lt_succ_self n, h, fun j hj hlt => absurd hlt (by omega)⟩
      · rintro ⟨hi, -, hlast⟩
        obtain hlt | rfl := Nat.lt_or_eq_of_le (Nat.le_of_lt_succ hi)
        · exact absurd h (hlast n (Nat.lt_succ_self n) hlt)
        · rfl
    next h =>
      rw [ih]
      constructor
      · rintro ⟨hi, hstands, hlast⟩
        refine ⟨Nat.lt_succ_of_lt hi, hstands, fun j hj hlt => ?_⟩
        obtain hj | rfl := Nat.lt_or_eq_of_le (Nat.le_of_lt_succ hj)
        · exact hlast j hj hlt
        · exact h
      · rintro ⟨hi, hstands, hlast⟩
        obtain hi | rfl := Nat.lt_or_eq_of_le (Nat.le_of_lt_succ hi)
        · exact ⟨hi, hstands, fun j hj hlt => hlast j (Nat.lt_succ_of_lt hj) hlt⟩
        · exact absurd hstands h

omit [DecidableEq α] in
theorem singleton_prefix_iff {a : α} : [a] <+: l ↔ l.head? = some a := by
  cases l with
  | nil => simp
  | cons b l => simp [eq_comm]

/-- One cell stands last where none follows it below the bound. -/
theorem lastAt_singleton {a : α} {n : Nat} (hlow : u.length < n) (h : a ∉ v.take (n - u.length - 1)) :
    lastAt [a] (u ++ a :: v) n = some u.length := by
  refine lastAt_eq_some_iff.mpr ⟨hlow, ?_, fun j hj hlt hstands => ?_⟩
  · rw [List.drop_left]
    exact ⟨v, rfl⟩
  · obtain ⟨k, rfl⟩ := Nat.exists_eq_add_of_lt hlt
    have hk : k < n - u.length - 1 := by omega
    rw [Nat.add_assoc, List.drop_length_add_append, List.drop_succ_cons, singleton_prefix_iff, List.head?_drop,
      ← List.getElem?_take_of_lt hk] at hstands
    exact h (List.mem_of_getElem? hstands)

theorem lastAt_singleton_none {a : α} {n : Nat} (h : a ∉ u) (hn : n ≤ u.length) : lastAt [a] (u ++ v) n = none := by
  refine lastAt_eq_none_iff.mpr fun j hj hstands => ?_
  rw [singleton_prefix_iff, List.head?_drop, List.getElem?_append_left (Nat.lt_of_lt_of_le hj hn)] at hstands
  exact h (List.mem_of_getElem? hstands)

omit [DecidableEq α] in
/-- What agrees with `t` in its first `k` cells agrees in one more. -/
theorem take_succ_prefix_iff {k : Nat} (h : t.take k <+: l) (hk : k < t.length) :
    t.take (k + 1) <+: l ↔ l[k]? = some t[k] := by
  obtain ⟨v, rfl⟩ := h
  have hlen : (t.take k).length = k := List.length_take_of_le (Nat.le_of_lt hk)
  rw [List.take_succ_eq_append_getElem hk, List.prefix_append_right_inj, List.getElem?_append_right (Nat.le_of_eq hlen),
    hlen, Nat.sub_self]
  cases v with
  | nil => simp
  | cons b v => simp [eq_comm]

end Occurrences
