import Srl.StrSectionSkip

namespace Srl

open Cells Session Occurrences

namespace Bytes

/-- A character other than `NUL` is none of those behind the end. -/
theorem charAt_eq_iff {l : Bytes} {c : UInt8} {i : Nat} (hc : c ≠ 0) : l.charAt i = c ↔ l[i]? = some c := by
  rw [charAt, List.getD_eq_getElem?_getD]
  cases l[i]? with
  | none => simp [hc.symm]
  | some b => simp

end Bytes

namespace Str

/-- The loop of `rfind(char)`, which looks at the `n` first characters, the last one first. -/
def rfindLoop (c : UInt8) : Nat → Call (Option Nat)
  | 0 => pure none
  | n + 1 => do
    if (← read n) = c then pure (some n) else rfindLoop c n

/-- `rfind(char)`, whose loop has an index of type `int`. The position 0 asks for the end. -/
def rfind (c : UInt8) (pos : Nat) : Call Int := do
  let self ← get
  if self.string_length < pos then pure (-1)
  else
    let i := int32 (if pos = 0 then self.string_length else pos)
    let found ← rfindLoop c (i + 1).toNat
    pure (found.elim (-1) fun n => n)

/-- `str_find[fpos]`, whose index is an `int`. -/
def textAt (str_find : Bytes) (fpos : Int) : Call UInt8 :=
  if 0 ≤ fpos ∧ fpos ≤ str_find.length then pure (str_find.charAt fpos.toNat) else throw .fault

/-- The inner loop of `rfind`, which compares the text from the index `i` on. -/
def matchLoop (str_find : Bytes) (i : Nat) : Nat → Int → Call Bool
  | 0, _ => throw .unfinished
  | rounds + 1, fpos => do
    if (← readAt (int32 (i + fpos))) = (← textAt str_find fpos) then
      if (← textAt str_find (int32 (fpos + 1))) = 0 then pure true
      else matchLoop str_find i rounds (int32 (fpos + 1))
    else pure false

/-- The outer loop, over the `n` first indices, the last one first. -/
def rfindTextLoop (str_find : Bytes) : Nat → Call (Option Nat)
  | 0 => pure none
  | n + 1 => do
    if ← matchLoop str_find n (str_find.length + 1) 0 then pure (some n) else rfindTextLoop str_find n

/-- `rfind(const char *)`. The position 0 asks for the end. -/
def rfindText (str_find : Bytes) (pos : Nat) : Call Int := do
  let self ← get
  if self.string_length < pos then pure (-1)
  else
    let i := int32 (if pos = 0 then self.string_length else pos)
    let found ← rfindTextLoop str_find (i + 1).toNat
    pure (found.elim (-1) fun n => n)

/-- Where the search starts. -/
def startOf (l : Bytes) (pos : Nat) : Nat := if pos = 0 then l.length else pos

/-- The last place up to `pos` where `t` stands in `l`. -/
def lastIndex (t l : Bytes) (pos : Nat) : Int :=
  if l.length < pos then -1 else (lastAt t l (startOf l pos + 1)).elim (-1) fun n => n

/-- At the index `i` the texts agree for so long that `i + fpos`, or `fpos`, comes to 2³¹. -/
def Overruns (t l : Bytes) (i : Nat) : Prop := t.take (2 ^ 31 - i) <+: l.drop i ∧ 2 ^ 31 < max i 1 + t.length

instance (t l : Bytes) (i : Nat) : Decidable (Overruns t l i) := inferInstanceAs (Decidable (_ ∧ _))

/-- At none of the `n` first indices that the search comes to do the texts agree for so long. -/
def Passes (t l : Bytes) (n : Nat) : Prop := ∀ i < n, (∀ j < n, i < j → ¬t <+: l.drop j) → ¬Overruns t l i

instance (t l : Bytes) (n : Nat) : Decidable (Passes t l n) :=
  inferInstanceAs (Decidable (∀ i < n, (∀ j < n, i < j → ¬t <+: l.drop j) → ¬Overruns t l i))

/-- Where `rfind` is right: an `int` holds every index the search comes to, or there is nothing to be found. -/
def Searchable (t l : Bytes) (pos : Nat) : Prop :=
  pos ≤ l.length →
    if startOf l pos < 2 ^ 31 then Passes t l (startOf l pos + 1) else ∀ i < startOf l pos + 1, ¬t <+: l.drop i

variable {s : Str} {l t a b : Bytes} {c : UInt8} {i k n pos : Nat}

theorem passes_zero (t l : Bytes) : Passes t l 0 := fun i hi => absurd hi (Nat.not_lt_zero i)

theorem passes_succ : Passes t l (n + 1) ↔ ¬Overruns t l n ∧ (t <+: l.drop n ∨ Passes t l n) := by
  constructor
  · intro h
    refine ⟨h n (Nat.lt_succ_self n) fun j hj hlt => absurd hlt (by omega), ?_⟩
    by_cases hn : t <+: l.drop n
    · exact .inl hn
    · refine .inr fun i hi hmiss => h i (Nat.lt_succ_of_lt hi) fun j hj hlt => ?_
      obtain hj | rfl := Nat.lt_or_eq_of_le (Nat.le_of_lt_succ hj)
      · exact hmiss j hj hlt
      · exact hn
  · rintro ⟨hover, h⟩ i hi hmiss
    obtain hi | rfl := Nat.lt_or_eq_of_le (Nat.le_of_lt_succ hi)
    · obtain hn | h := h
      · exact absurd hn (hmiss n (Nat.lt_succ_self n) hi)
      · exact h i hi fun j hj hlt => hmiss j (Nat.lt_succ_of_lt hj) hlt
    · exact hover

theorem not_overruns (h : l.length < 2 ^ 31) (hi : i ≤ l.length) : ¬Overruns t l i := by
  rintro ⟨hagree, hlong⟩
  have hle := hagree.length_le
  rw [List.length_take, List.length_drop] at hle
  omega

theorem overruns_of_agree (hagree : t.take k <+: l.drop i) (hend : i + k = 2 ^ 31)
    (hlong : 2 ^ 31 < max i 1 + t.length) : Overruns t l i := by
  refine ⟨?_, hlong⟩
  rwa [show 2 ^ 31 - i = k by omega]

theorem not_overruns_of_miss (hmiss : ¬t.take (k + 1) <+: l.drop i) (hlt : i + k < 2 ^ 31) : ¬Overruns t l i :=
  fun hover => hmiss ((List.take_prefix_take_left (by omega)).trans hover.1)

theorem textAt_eq (s : Str) (hk : k ≤ t.length) : textAt t k s = (.ok (t.charAt k), s) := by
  rw [textAt, if_pos ⟨Int.natCast_nonneg k, Int.ofNat_le.mpr hk⟩, Int.toNat_natCast]
  rfl

theorem textAt_neg (s : Str) {i : Int} (hi : i < 0) : textAt t i s = (.error .fault, s) := by
  rw [textAt, if_neg fun h => absurd h.1 (Int.not_le.mpr hi)]
  rfl

namespace Shows

/-- One round of the inner loop, behind `k` characters that agree. -/
theorem matchLoop_step (h : Shows s l) {rounds : Nat} (hk : k < t.length) (hle : i + k ≤ l.length)
    (hsmall : i + k < 2 ^ 31) : matchLoop t i (rounds + 1) k s =
      if l.charAt (i + k) = t[k] then
        (do if (← textAt t (int32 (k + 1 : Nat))) = 0 then pure true else matchLoop t i rounds (int32 (k + 1 : Nat))) s
      else (.ok false, s) := by
  rw [matchLoop, ← Nat.cast_add, bind_ok (h.readAt_eq hle hsmall), bind_ok (textAt_eq s (Nat.le_of_lt hk)),
    Bytes.charAt_of_lt hk]
  split
  next => rfl
  next => rfl

/-- The inner loop tells whether the text stands at `i`, unless it overruns the `int`. -/
theorem matchLoop_eq (h : Shows s l) (ht : ∀ c ∈ t, c ≠ 0) (hi : i ≤ l.length) {rounds : Nat} (hk : k < t.length)
    (hagree : t.take k <+: l.drop i) (hrounds : t.length ≤ k + rounds) (hsum : i + k ≤ 2 ^ 31) (hsmall : k < 2 ^ 31) :
    matchLoop t i rounds k s = (if Overruns t l i then .error .fault else .ok (decide (t <+: l.drop i)), s) := by
  induction rounds generalizing k with
  | zero => exact absurd hk (Nat.not_lt.mpr hrounds)
  | succ rounds ih =>
    obtain hlt | hend := Nat.lt_or_eq_of_le hsum
    · have hle := hagree.length_le
      rw [List.length_take_of_le (Nat.le_of_lt hk), List.length_drop] at hle
      have hnext : t.take (k + 1) <+: l.drop i ↔ l.charAt (i + k) = t[k] := by
        rw [take_succ_prefix_iff hagree hk, List.getElem?_drop, Bytes.charAt_eq_iff (ht _ (List.getElem_mem hk))]
      rw [h.matchLoop_step hk (by omega) hlt]
      split
      next hchar =>
        have hmore := hnext.mpr hchar
        have hroom : k + 1 ≤ t.length := hk
        obtain hsmall | htop := Nat.lt_or_eq_of_le (show k + 1 ≤ 2 ^ 31 from hsmall)
        · rw [int32_of_lt hsmall, bind_ok (textAt_eq s hroom)]
          obtain hin | hall := Nat.lt_or_eq_of_le hroom
          · rw [Bytes.charAt_of_lt hin, if_neg (ht _ (List.getElem_mem hin))]
            exact ih hin hmore (by omega) (by omega) hsmall
          · have hstands : t <+: l.drop i := by rwa [hall, List.take_length] at hmore
            have hover : ¬Overruns t l i := fun hover => absurd hover.2 (by omega)
            rw [hall, Bytes.charAt_length, if_pos rfl, if_neg hover, decide_eq_true hstands]
            rfl
        · have hover := overruns_of_agree hmore (by omega) (by omega)
          rw [bind_error (textAt_neg s (int32_neg (Nat.le_of_eq htop.symm) (by omega))), if_pos hover]
      next hchar =>
        have hmiss : ¬t.take (k + 1) <+: l.drop i := fun hmore => hchar (hnext.mp hmore)
        have hfalse : ¬t <+: l.drop i := fun hstands => hmiss ((List.take_prefix _ _).trans hstands)
        rw [if_neg (not_overruns_of_miss hmiss hlt), decide_eq_false hfalse]
    · have hover := overruns_of_agree hagree hend (by omega)
      rw [matchLoop, ← Nat.cast_add, if_pos hover]
      exact bind_error (readAt_neg (int32_neg (Nat.le_of_eq hend.symm) (by omega)) s)

theorem matchLoop_start (h : Shows s l) (ht : ∀ c ∈ t, c ≠ 0) (hne : t ≠ []) (hi : i ≤ l.length) (hsmall : i ≤ 2 ^ 31) :
    matchLoop t i (t.length + 1) 0 s = (if Overruns t l i then .error .fault else .ok (decide (t <+: l.drop i)), s) :=
  h.matchLoop_eq ht hi (List.length_pos_of_ne_nil hne) List.nil_prefix (by omega) hsmall (by decide)

/-- The outer loop comes to the last place of the text, unless it overruns the `int` on the way. -/
theorem rfindTextLoop_eq (h : Shows s l) (ht : ∀ c ∈ t, c ≠ 0) (hne : t ≠ []) (hn : n ≤ l.length + 1)
    (hsmall : n ≤ 2 ^ 31) :
    rfindTextLoop t n s = (if Passes t l n then .ok (lastAt t l n) else .error .fault, s) := by
  induction n with
  | zero =>
    rw [if_pos (passes_zero t l)]
    rfl
  | succ n ih =>
    have hmatch := h.matchLoop_start ht hne (Nat.le_of_lt_succ hn) (Nat.le_of_lt hsmall)
    rw [rfindTextLoop]
    by_cases hover : Overruns t l n
    · rw [if_pos hover] at hmatch
      rw [bind_error hmatch, if_neg fun hpasses => (passes_succ.mp hpasses).1 hover]
    · rw [if_neg hover] at hmatch
      rw [bind_ok hmatch, lastAt]
      by_cases hn : t <+: l.drop n
      · rw [decide_eq_true hn, if_pos rfl, if_pos hn, if_pos (passes_succ.mpr ⟨hover, .inl hn⟩)]
        rfl
      · have hrest : Passes t l (n + 1) ↔ Passes t l n := by
          rw [passes_succ]
          exact ⟨fun hpasses => hpasses.2.resolve_left hn, fun hpasses => ⟨hover, .inr hpasses⟩⟩
        rw [decide_eq_false hn, if_neg Bool.false_ne_true, if_neg hn, ih (by omega) (by omega)]
        simp only [hrest]

end Shows

theorem startOf_le (hpos : pos ≤ l.length) : startOf l pos ≤ l.length := by
  unfold startOf
  split
  next => exact Nat.le_refl _
  next => exact hpos

theorem lastIndex_of_le (hpos : pos ≤ l.length) :
    lastIndex t l pos = (lastAt t l (startOf l pos + 1)).elim (-1 : Int) fun n => n := by
  rw [lastIndex, if_neg (Nat.not_lt.mpr hpos)]

theorem lastIndex_eq_neg_one_iff (hpos : pos ≤ l.length) :
    lastIndex t l pos = -1 ↔ ∀ i < startOf l pos + 1, ¬t <+: l.drop i := by
  rw [lastIndex_of_le hpos, ← lastAt_eq_none_iff]
  cases lastAt t l (startOf l pos + 1) with
  | none => exact ⟨fun _ => rfl, fun _ => rfl⟩
  | some i => exact ⟨fun h => absurd h (by show (i : Int) ≠ -1; omega), nofun⟩

namespace Shows

theorem rfindText_behind (h : Shows s l) (hpos : l.length < pos) : rfindText t pos s = (.ok (-1), s) := by
  unfold rfindText
  rw [get_bind, h.length_eq, if_pos hpos]
  rfl

/-- What the outer loop finds is the answer. -/
theorem rfindText_of_loop (h : Shows s l) (hpos : pos ≤ l.length) {found : Except Stop (Option Nat)}
    (hloop : rfindTextLoop t (int32 (startOf l pos) + 1).toNat s = (found, s)) :
    rfindText t pos s = (found.map fun found => found.elim (-1 : Int) fun n => n, s) := by
  rw [startOf, Nat.cast_ite] at hloop
  unfold rfindText
  rw [get_bind, h.length_eq, if_neg (Nat.not_lt.mpr hpos)]
  cases found with
  | ok found => exact bind_ok hloop
  | error e => exact bind_error hloop

/-- From 2³¹ on the index is negative, and the loop looks at none. -/
theorem rfindText_long (h : Shows s l) (hpos : pos ≤ l.length) (hlow : 2 ^ 31 ≤ startOf l pos)
    (hhigh : l.length < 2 ^ 32) : rfindText t pos s = (.ok (-1), s) := by
  have hle := startOf_le hpos
  have hneg := int32_neg hlow (by omega)
  have hloop : rfindTextLoop t (int32 (startOf l pos) + 1).toNat s = (.ok none, s) := by
    rw [Int.toNat_of_nonpos (by omega)]
    rfl
  exact h.rfindText_of_loop hpos hloop

theorem rfindText_short (h : Shows s l) (ht : ∀ c ∈ t, c ≠ 0) (hne : t ≠ []) (hpos : pos ≤ l.length)
    (hsmall : startOf l pos < 2 ^ 31) : rfindText t pos s =
      (if Passes t l (startOf l pos + 1) then .ok (lastIndex t l pos) else .error .fault, s) := by
  have hle := startOf_le hpos
  have hrounds : (int32 (startOf l pos) + 1).toNat = startOf l pos + 1 := by
    rw [int32_of_lt hsmall]
    rfl
  have hloop := h.rfindTextLoop_eq ht hne (Nat.succ_le_succ hle) hsmall
  rw [h.rfindText_of_loop hpos (by rw [hrounds, hloop]), lastIndex_of_le hpos]
  split
  next => rfl
  next => rfl

/-- The answer is the last place of the text exactly if the search can give it. -/
theorem rfindText_last_iff (h : Shows s l) (ht : ∀ c ∈ t, c ≠ 0) (hne : t ≠ []) (hlen : l.length < 2 ^ 32) :
    rfindText t pos s = (.ok (lastIndex t l pos), s) ↔ Searchable t l pos := by
  unfold Searchable
  obtain hbehind | hpos := Nat.lt_or_ge l.length pos
  · rw [h.rfindText_behind hbehind, lastIndex, if_pos hbehind]
    exact ⟨fun _ hle => absurd hle (Nat.not_le.mpr hbehind), fun _ => rfl⟩
  · simp only [hpos, true_imp_iff]
    split
    next hsmall =>
      rw [h.rfindText_short ht hne hpos hsmall]
      split
      next hpasses => exact ⟨fun _ => hpasses, fun _ => rfl⟩
      next hpasses => exact ⟨nofun, fun hall => absurd hall hpasses⟩
    next hsmall =>
      rw [h.rfindText_long hpos (Nat.not_lt.mp hsmall) hlen, ← lastIndex_eq_neg_one_iff hpos]
      constructor
      · intro heq
        exact (Except.ok.inj (congrArg Prod.fst heq)).symm
      · intro heq
        rw [heq]

/-- Two memories that show the same text give the same answer, so that nothing behind the terminator is read. -/
theorem rfindText_congr {s' : Str} (h : Shows s l) (h' : Shows s' l) (ht : ∀ c ∈ t, c ≠ 0) (hne : t ≠ [])
    (hlen : l.length < 2 ^ 32) : (rfindText t pos s).1 = (rfindText t pos s').1 := by
  obtain hbehind | hpos := Nat.lt_or_ge l.length pos
  · rw [h.rfindText_behind hbehind, h'.rfindText_behind hbehind]
  · obtain hsmall | hlow := Nat.lt_or_ge (startOf l pos) (2 ^ 31)
    · rw [h.rfindText_short ht hne hpos hsmall, h'.rfindText_short ht hne hpos hsmall]
    · rw [h.rfindText_long hpos hlow hlen, h'.rfindText_long hpos hlow hlen]

end Shows

/-- An `int` holds every index of a text that is shorter than 2³¹. -/
theorem searchable_of_short (hlen : l.length < 2 ^ 31) : Searchable t l pos := by
  intro hpos
  have hle := startOf_le hpos
  rw [if_pos (Nat.lt_of_le_of_lt hle hlen)]
  exact fun i hi _ => not_overruns hlen (by omega)

theorem int32_lt (i : Int) : int32 i < 2 ^ 31 := by
  have hlt := @Int.bmod_lt i (2 ^ 32) (by decide)
  unfold int32
  omega

theorem matchLoop_singleton (hi : i < 2 ^ 31) :
    matchLoop [c] i 2 0 = (do if (← read i) = c then pure true else pure false : Call Bool) := by
  funext s
  rw [matchLoop, Int.add_zero, readAt_natCast hi]
  cases hread : read i s with
  | mk r s' =>
    cases r with
    | ok b =>
      have hfirst : textAt [c] 0 s' = (.ok c, s') := @textAt_eq [c] 0 s' (Nat.zero_le 1)
      have hend : textAt [c] (int32 (0 + 1)) s' = (.ok 0, s') := @textAt_eq [c] 1 s' (Nat.le_refl 1)
      rw [bind_ok hread, bind_ok hread, bind_ok hfirst]
      split
      next => exact bind_ok hend
      next => rfl
    | error e => rw [bind_error hread, bind_error hread]

theorem rfindTextLoop_singleton (hn : n ≤ 2 ^ 31) : rfindTextLoop [c] n = rfindLoop c n := by
  induction n with
  | zero => rfl
  | succ n ih =>
    rw [rfindTextLoop, rfindLoop, ih (by omega)]
    change (matchLoop [c] n 2 0 >>= fun b => if b = true then pure (some n) else rfindLoop c n) = _
    rw [matchLoop_singleton hn, bind_assoc]
    congr 1
    funext b
    split
    next => rfl
    next => rfl

/-- `rfind(char)` is `rfind(const char *)` of the one character. -/
theorem rfind_eq_rfindText (c : UInt8) (pos : Nat) : rfind c pos = rfindText [c] pos := by
  funext s
  unfold rfind rfindText
  rw [get_bind, get_bind]
  split
  next => rfl
  next =>
    have hlt := int32_lt (if pos = 0 then (s.string_length : Int) else pos)
    have hloop := @rfindTextLoop_singleton c (int32 (if pos = 0 then (s.string_length : Int) else pos) + 1).toNat
      (by omega)
    simp only [hloop]

namespace Shows

theorem rfind_lastIndex (h : Shows s l) (hc : c ≠ 0) (hlen : l.length < 2 ^ 31) :
    rfind c pos s = (.ok (lastIndex [c] l pos), s) := by
  have hc' : ∀ d ∈ [c], d ≠ 0 := by
    intro d hd
    rwa [List.mem_singleton.mp hd]
  rw [rfind_eq_rfindText]
  exact (h.rfindText_last_iff hc' (List.cons_ne_nil _ _) (by omega)).mpr (searchable_of_short hlen)

theorem rfind_last (h : Shows s l) (hc : c ≠ 0) (hw : l = a ++ c :: b) (hb : c ∉ b) (hlen : l.length < 2 ^ 31) :
    rfind c 0 s = (.ok a.length, s) := by
  rw [h.rfind_lastIndex hc hlen, lastIndex_of_le (Nat.zero_le _), startOf, if_pos rfl, hw,
    lastAt_singleton (by rw [List.length_append]; omega) fun hmem => hb (List.mem_of_mem_take hmem)]
  rfl

theorem rfind_long (h : Shows s l) (hlow : 2 ^ 31 ≤ l.length) (hhigh : l.length < 2 ^ 32) :
    rfind c 0 s = (.ok (-1), s) := by
  rw [rfind_eq_rfindText]
  exact h.rfindText_long (Nat.zero_le _) hlow hhigh

end Shows

/-- `rfind` finds the last place up to `pos`, in every text shorter than 2³¹ and in the others as far as an `int`
goes. -/
theorem rfindText_last (h : Stores s l) (hne : t ≠ []) (ht : ∀ c ∈ t, c ≠ 0) (pos : Nat) :
    (l.length < 2 ^ 31 → rfindText t pos s = (.ok (lastIndex t l pos), s)) ∧
    (rfindText t pos s = (.ok (lastIndex t l pos), s) ↔ Searchable t l pos) ∧
    (rfindText t pos (s.withBuffer (l ++ [0]))).1 = (rfindText t pos s).1 ∧
    ∀ c, rfind c pos = rfindText [c] pos := by
  have hshows := h.toHolds.shows
  have hlen := h.length_lt
  have hiff := @hshows.rfindText_last_iff s l t pos ht hne (by omega)
  refine ⟨fun hshort => hiff.mpr (searchable_of_short hshort), hiff, ?_, fun c => rfind_eq_rfindText c pos⟩
  exact hshows.clipped.rfindText_congr hshows ht hne (by omega)

theorem rfindText_last_comma : ∃ s, Stores s (bytes "123, 678, 1234") ∧
    rfindText (bytes ",") 0 s = (.ok 8, s) ∧ rfindText (bytes ",") 7 s = (.ok 3, s) := by
  obtain ⟨s, -, h⟩ := create_copy (fun _ => 7) empty (by decide : (bytes "123, 678, 1234").length + 16 < 2 ^ 32)
  refine ⟨s, h, ?_, ?_⟩
  · exact (rfindText_last h (by decide) (by decide) 0).1 (by decide)
  · exact (rfindText_last h (by decide) (by decide) 7).1 (by decide)

/-- 2³¹ times one character, of which `rfind` finds none. -/
theorem not_rfindText_last : ¬∀ (s : Str) (l t : Bytes) (pos : Nat), Stores s l → (∀ b ∈ l, b ≠ 0) → t ≠ [] →
    (∀ c ∈ t, c ≠ 0) → rfindText t pos s = (.ok (lastIndex t l pos), s) := by
  intro hall
  obtain ⟨l, s, hlen, hletters, h⟩ := exists_long 97 [] (by decide)
  rw [List.append_nil] at h
  have hfound := hall s l [97] 0 h (fun b hb => by rw [hletters b hb]; decide) (by decide) (by decide)
  rw [h.toHolds.shows.rfindText_long (Nat.zero_le _) (Nat.le_of_eq hlen.symm) (by omega)] at hfound
  have hnone := (lastIndex_eq_neg_one_iff (Nat.zero_le _)).mp (Except.ok.inj (congrArg Prod.fst hfound)).symm
  apply hnone 0 (Nat.succ_pos _)
  obtain ⟨b, w, rfl⟩ := List.exists_cons_of_length_pos (by omega : 0 < l.length)
  rw [hletters b List.mem_cons_self]
  exact ⟨w, rfl⟩

end Str

end Srl
