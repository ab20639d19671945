import Srl.StrSection
import Srl.BytesEscape

namespace Srl

open Session

namespace Str

/-- `s[i]` for another string `s`. -/
def charOf (s : Str) (i : Nat) : Call UInt8 :=
  match s.memory[i]? with
  | some c => pure c
  | none => throw .fault

/-- What `escape` appends to `result` for a character. -/
def escapeChar (fresh : Nat → UInt8) (c : UInt8) : Call Unit :=
  match Bytes.named c with
  | some e => append fresh [92, e]
  | none =>
    if c < 32 ∨ 127 < c then do
      append fresh [92, 120]
      plusChar fresh (Bytes.charAt Bytes.HEX (c.toNat / 16))
      plusChar fresh (Bytes.charAt Bytes.HEX (c.toNat % 16))
    else plusChar fresh c

variable (mem : Nat → Nat → UInt8)

def escapeLoop (s : Str) : Nat → Nat → Call Unit
  | 0, _ => pure ()
  | rounds + 1, p => do
    escapeChar (mem p) (← charOf s p)
    escapeLoop s rounds (p + 1)

/-- `String::escape`; its loop counts to an `int32`. -/
def escape : Call Str := do
  let s ← get
  create (escapeLoop mem s (int32 s.string_length).toNat 0)

/-- The digits behind an escape that stands at `p`; the answer is where `p` is left. -/
def digits (isdigit : UInt8 → Bool) (v₀ : UInt8) (v₁ : UInt8 → UInt8) (v₂ : UInt8 → UInt8 → UInt8)
    (fresh : Nat → UInt8) (s : Str) (p : Nat) : Call Nat := do
  let c ← charOf s (p + 1)
  if isdigit c then
    let d ← charOf s (p + 2)
    if isdigit d then
      plusChar fresh (v₂ c d)
      pure (p + 2)
    else
      plusChar fresh (v₁ c)
      pure (p + 1)
  else
    plusChar fresh v₀
    pure p

def hexEscape (fresh : Nat → UInt8) (s : Str) (p : Nat) : Call Nat :=
  digits Bytes.isxdigit 120 Bytes.xdigit (fun c d => Bytes.xdigit c * 16 + Bytes.xdigit d) fresh s p

def octalEscape (fresh : Nat → UInt8) (s : Str) (p : Nat) : Call Nat := do
  let b ← charOf s p
  digits Bytes.octal (b - 48) (fun c => (b - 48) * 8 + (c - 48))
    (fun c d => ((b - 48) * 8 + (c - 48)) * 8 + (d - 48)) fresh s p

/-- The character behind a backslash. -/
def sequence (fresh : Nat → UInt8) (s : Str) (p : Nat) : Call Nat := do
  let c ← charOf s p
  match Bytes.unnamed c with
  | some b =>
    plusChar fresh b
    pure p
  | none =>
    if c = 120 then hexEscape fresh s p
    else if Bytes.octal c then octalEscape fresh s p
    else
      plusChar fresh c
      pure p

def unescapeLoop (s : Str) (len : Nat) : Nat → Nat → Call Unit
  | 0, _ => throw .unfinished
  | rounds + 1, p =>
    if p < len then do
      let c ← charOf s p
      if c = 92 then
        if len ≤ p + 1 then pure ()
        else
          let p ← sequence (mem p) s (p + 1)
          unescapeLoop s len rounds (p + 1)
      else
        plusChar (mem p) c
        unescapeLoop s len rounds (p + 1)
    else pure ()

def unescape : Call Str := do
  let s ← get
  let len := (int32 s.string_length).toNat
  create (unescapeLoop mem s len (len + 1) 0)

variable {s t : Str} {l r front w : Bytes} {c d : UInt8} {i : Nat} {x : Call Unit} {fresh : Nat → UInt8}

theorem create_becomes (h : Becomes x empty r) (s : Str) : Yields (create x) s r := by
  obtain ⟨t, ht, hr⟩ := h
  refine ⟨t, ?_, hr⟩
  unfold create
  rw [ht]
  rfl

theorem Becomes.bind {f : Unit → Call Unit} (hx : Becomes x t l) (hf : ∀ u, Stores u l → Becomes (f ()) u r) :
    Becomes (x >>= f) t r := by
  obtain ⟨u, hu, hl⟩ := hx
  obtain ⟨v, hv, hr⟩ := hf u hl
  exact ⟨v, (bind_ok hu).trans hv, hr⟩

theorem charOf_eq (h : Shows s l) (hi : i ≤ l.length) (t : Str) : charOf s i t = (.ok (l.charAt i), t) := by
  rw [charOf, h.memory_eq hi]
  rfl

theorem Stores.append_becomes (h : Stores t r) (fresh : Nat → UInt8) {d : Bytes} (hfew : r.length + d.length < 2 ^ 31)
    (hd : d ≠ []) : Becomes (append fresh d) t (r ++ d) :=
  h.becomes (keeps_append fresh d) (h.append_spec fresh hfew (.inr hd))

theorem Stores.plusChar_becomes (h : Stores t r) (fresh : Nat → UInt8) (c : UInt8) (hfew : r.length + 1 < 2 ^ 31) :
    Becomes (plusChar fresh c) t (r ++ Bytes.kept c) := by
  by_cases hc : c = 0
  · rw [hc, Bytes.kept, if_pos rfl, List.append_nil]
    exact ⟨t, rfl, h⟩
  · rw [Bytes.kept_of_ne hc]
    exact h.becomes (keeps_plusChar fresh c) (h.plusChar_spec fresh hfew hc)

theorem Stores.escapeChar_becomes (h : Stores t r) (fresh : Nat → UInt8) (hc : c ≠ 0)
    (hfew : r.length + (Bytes.escapeChar c).length < 2 ^ 31) :
    Becomes (escapeChar fresh c) t (r ++ Bytes.escapeChar c) := by
  unfold escapeChar
  cases he : Bytes.named c with
  | some e =>
    rw [Bytes.escapeChar_named he] at hfew ⊢
    exact h.append_becomes fresh hfew (List.cons_ne_nil _ _)
  | none =>
    dsimp only
    split
    next hhex =>
      obtain ⟨-, -, hhigh⟩ := Bytes.HEX_spec (by have := c.toNat_lt; omega : c.toNat / 16 < 16)
      obtain ⟨-, -, hlow⟩ := Bytes.HEX_spec (Nat.mod_lt c.toNat (by decide : 0 < 16))
      rw [Bytes.escapeChar_hex he hhex] at hfew ⊢
      simp only [List.length_cons, List.length_nil] at hfew
      refine (h.append_becomes fresh (d := [92, 120]) (by simp only [List.length_cons, List.length_nil]; omega)
        (List.cons_ne_nil _ _)).bind fun u hu => ?_
      have hlen : (r ++ [92, 120]).length = r.length + 2 := List.length_append
      refine (hu.plusChar_becomes fresh _ (by omega)).bind fun v hv => ?_
      rw [Bytes.kept_of_ne hhigh] at hv
      have hlast := hv.plusChar_becomes fresh (Bytes.charAt Bytes.HEX (c.toNat % 16))
        (by rw [List.length_append, hlen, List.length_singleton]; omega)
      rw [Bytes.kept_of_ne hlow] at hlast
      simpa only [List.append_assoc, List.cons_append, List.nil_append] using hlast
    next hhex =>
      rw [Bytes.escapeChar_plain he hhex] at hfew ⊢
      have hplain := h.plusChar_becomes fresh c hfew
      rwa [Bytes.kept_of_ne hc] at hplain

/-- The rest of a text is escaped behind what `result` holds. -/
theorem escapeLoop_becomes (h : Shows s l) {n : Nat} (hw : l = front ++ w) (hn : w.length = n) (hnul : ∀ c ∈ w, c ≠ 0)
    (ht : Stores t r) (hfew : r.length + (Bytes.escape w).length < 2 ^ 31) :
    Becomes (escapeLoop mem s n front.length) t (r ++ Bytes.escape w) := by
  induction n generalizing front w t r with
  | zero =>
    rw [List.eq_nil_of_length_eq_zero hn]
    exact ⟨t, rfl, by rwa [Bytes.escape, List.flatMap_nil, List.append_nil]⟩
  | succ n ih =>
    obtain ⟨c, w, rfl⟩ := List.exists_cons_of_length_eq_add_one hn
    have hle : front.length ≤ l.length := by
      rw [hw, List.length_append]
      omega
    have hchar : l.charAt front.length = c := by
      rw [hw]
      exact Bytes.charAt_front front c w
    have hsplit : Bytes.escape (c :: w) = Bytes.escapeChar c ++ Bytes.escape w := List.flatMap_cons
    rw [hsplit, List.length_append] at hfew
    rw [hsplit, Becomes, escapeLoop, bind_ok (charOf_eq h hle t), hchar]
    refine (ht.escapeChar_becomes (mem front.length) (hnul c List.mem_cons_self) (by omega)).bind fun u hu => ?_
    have hlen : front.length + 1 = (front ++ [c]).length := (@List.length_append _ front [c]).symm
    rw [hlen, ← List.append_assoc]
    refine ih (by rw [hw, List.append_assoc]; rfl) (Nat.succ.inj hn)
      (fun b hb => hnul b (List.mem_cons_of_mem _ hb)) hu ?_
    rw [List.length_append]
    omega

/-- The call answers `n`, and its string then stores `r`. -/
def Answers (x : Call Nat) (t : Str) (n : Nat) (r : Bytes) : Prop := ∃ u, x t = (.ok n, u) ∧ Stores u r

theorem Becomes.answers (h : Becomes x t r) (n : Nat) : Answers (x >>= fun _ => pure n) t n r := by
  obtain ⟨u, hu, hr⟩ := h
  exact ⟨u, bind_ok hu, hr⟩

section

variable (fresh) (h : Shows s l) (ht : Stores t r) (hfew : r.length + 1 < 2 ^ 31)

include h ht hfew

theorem digits_answers {isdigit : UInt8 → Bool} (hzero : isdigit 0 = false) (v₀ : UInt8) (v₁ : UInt8 → UInt8)
    (v₂ : UInt8 → UInt8 → UInt8) (hw : l = (front ++ [d]) ++ w) :
    Answers (digits isdigit v₀ v₁ v₂ fresh s front.length) t (front.length + (Bytes.digits isdigit v₀ v₁ v₂ w).2)
      (r ++ Bytes.kept (Bytes.digits isdigit v₀ v₁ v₂ w).1) := by
  have hlen : (front ++ [d]).length = front.length + 1 := List.length_append
  have hall : l.length = front.length + 1 + w.length := by rw [hw, List.length_append, hlen]
  have hchar : ∀ i, l.charAt (front.length + 1 + i) = w.charAt i := fun i => by
    rw [hw, ← hlen, Bytes.charAt_append]
  have hone := charOf_eq h (by omega : front.length + 1 ≤ l.length) t
  rw [show l.charAt (front.length + 1) = w.charAt 0 from hchar 0] at hone
  unfold digits Bytes.digits
  rw [Answers, bind_ok hone]
  split
  next hdigit =>
    have hlt := Bytes.lt_of_digit hzero hdigit
    have htwo := charOf_eq h (by omega : front.length + 2 ≤ l.length) t
    rw [show l.charAt (front.length + 2) = w.charAt 1 from hchar 1] at htwo
    rw [bind_ok htwo]
    split
    next => exact (ht.plusChar_becomes fresh _ hfew).answers _
    next => exact (ht.plusChar_becomes fresh _ hfew).answers _
  next => exact (ht.plusChar_becomes fresh _ hfew).answers _

theorem sequence_answers (hw : l = (front ++ [d]) ++ w) : Answers (sequence fresh s front.length) t
    (front.length + (Bytes.sequence d w).2) (r ++ Bytes.kept (Bytes.sequence d w).1) := by
  have hle : front.length ≤ l.length := by
    rw [hw, List.length_append, List.length_append]
    omega
  have hchar := charOf_eq h hle t
  rw [hw, List.append_assoc, List.singleton_append, Bytes.charAt_front] at hchar
  unfold sequence Bytes.sequence
  rw [Answers, bind_ok hchar]
  cases Bytes.unnamed d with
  | some b => exact (ht.plusChar_becomes fresh b hfew).answers _
  | none =>
    dsimp only
    split
    next => exact digits_answers fresh h ht hfew rfl _ _ _ hw
    next =>
      split
      next =>
        unfold octalEscape
        rw [bind_ok hchar]
        exact digits_answers fresh h ht hfew rfl _ _ _ hw
      next => exact (ht.plusChar_becomes fresh d hfew).answers _

end

/-- The rest of a text is unescaped behind what `result` holds, which is not longer than what has been read. -/
theorem unescapeLoop_becomes (h : Shows s l) (hfew : l.length < 2 ^ 31) {n : Nat} (hw : l = front ++ w)
    (hn : w.length ≤ n)
    (ht : Stores t r) (hr : r.length ≤ front.length) :
    Becomes (unescapeLoop mem s l.length (n + 1) front.length) t (r ++ Bytes.unescapeUpTo n w) := by
  have hend : ∀ m (front : Bytes) (t : Str) (r : Bytes), l = front ++ [] → Stores t r →
      Becomes (unescapeLoop mem s l.length (m + 1) front.length) t (r ++ Bytes.unescapeUpTo m []) := by
    intro m front t r hw ht
    rw [List.append_nil] at hw
    rw [Becomes, unescapeLoop, hw, if_neg (Nat.lt_irrefl _), Bytes.unescapeUpTo_nil, List.append_nil]
    exact ⟨t, rfl, ht⟩
  induction n generalizing front w t r with
  | zero =>
    rw [List.eq_nil_of_length_eq_zero (Nat.le_zero.mp hn)] at hw ⊢
    exact hend 0 front t r hw ht
  | succ n ih =>
    cases w with
    | nil => exact hend (n + 1) front t r hw ht
    | cons c w =>
      have hlen := congrArg List.length hw
      simp only [List.length_append, List.length_cons] at hlen hn
      have hchar := charOf_eq h (by omega : front.length ≤ l.length) t
      rw [show l.charAt front.length = c by rw [hw]; exact Bytes.charAt_front front c w] at hchar
      rw [Becomes, unescapeLoop, if_pos (by omega), bind_ok hchar]
      by_cases hc : c = 92
      · subst hc
        rw [if_pos rfl]
        cases w with
        | nil =>
          rw [if_pos (by simp only [List.length_nil] at hlen; omega)]
          exact ⟨t, rfl, by rwa [show Bytes.unescapeUpTo (n + 1) [92] = [] from rfl, List.append_nil]⟩
        | cons d w =>
          simp only [List.length_cons] at hlen hn
          have hle := Bytes.sequence_le d w
          have hback : (front ++ [92]).length = front.length + 1 := List.length_append
          have hw' : l = ((front ++ [92]) ++ [d]) ++ w := by
            rw [hw, List.append_assoc, List.append_assoc]
            rfl
          obtain ⟨u, hu, hs⟩ := sequence_answers (mem front.length) h ht (by omega) hw'
          rw [hback] at hu
          have hfront : front.length + 1 + (Bytes.sequence d w).2 + 1 =
              (((front ++ [92]) ++ [d]) ++ w.take (Bytes.sequence d w).2).length := by
            simp only [List.length_append, List.length_singleton, List.length_take]
            omega
          have hshort := Bytes.length_kept (Bytes.sequence d w).1
          rw [if_neg (by omega), bind_ok hu, Bytes.unescapeUpTo_backslash, ← List.append_assoc, hfront]
          refine ih (by rw [hw', @List.append_assoc _ (front ++ [92] ++ [d]), List.take_append_drop]) ?_ hs ?_
          · rw [List.length_drop]
            omega
          · rw [← hfront, List.length_append]
            omega
      · have hfront : front.length + 1 = (front ++ [c]).length := (@List.length_append _ front [c]).symm
        have hshort := Bytes.length_kept c
        rw [if_neg hc, Bytes.unescapeUpTo_plain hc, ← List.append_assoc, hfront]
        refine (ht.plusChar_becomes (mem front.length) c (by omega)).bind fun u hu => ?_
        refine ih (by rw [hw, List.append_assoc]; rfl) (by omega) hu ?_
        rw [List.length_append, ← hfront]
        omega

theorem int32_toNat (h : s.string_length < 2 ^ 32) :
    (int32 s.string_length).toNat = if s.string_length < 2 ^ 31 then s.string_length else 0 := by
  split
  next hlt => rw [int32_of_lt hlt, Int.toNat_natCast]
  next hge =>
    unfold int32
    rw [bmod_of_ge (Nat.le_of_not_lt hge) h]
    omega

theorem escape_yields (h : Shows s l) (hl : ∀ c ∈ l, c ≠ 0) (hfew : (Bytes.escape l).length < 2 ^ 31) :
    Yields (escape mem) s (Bytes.escape l) := by
  have hle := Bytes.length_le_escape l
  have hlen := h.length_eq
  have hloop := escapeLoop_becomes mem h (@List.nil_append _ l).symm rfl hl empty_stores
    (by rw [List.length_nil, Nat.zero_add]; exact hfew)
  unfold escape
  rw [Yields, get_bind, int32_toNat (by omega), if_pos (by omega), hlen]
  exact create_becomes hloop s

/-- What `unescape` answers: a text that is too long for an `int32` is passed over. -/
theorem unescape_yields (h : Shows s l) (hfew : l.length < 2 ^ 32) :
    Yields (unescape mem) s (if l.length < 2 ^ 31 then Bytes.unescape l else []) := by
  have hlen := h.length_eq
  unfold unescape
  rw [Yields, get_bind, int32_toNat (by omega), hlen]
  split
  next hlt =>
    have hloop := unescapeLoop_becomes mem h hlt (@List.nil_append _ l).symm (Nat.le_refl _) empty_stores
      (Nat.le_refl _)
    exact create_becomes hloop s
  next => exact create_becomes ⟨empty, rfl, empty_stores⟩ s

/-- An escaped text is unescaped to what it was, and `unescape` returns for every text and reads no further than
memory that ends with the terminator. -/
theorem escape_round_trip (h : Stores s l) (hl : ∀ c ∈ l, c ≠ 0) (mem mem' : Nat → Nat → UInt8) :
    ((Bytes.escape l).length < 2 ^ 31 → ∃ t, escape mem s = (.ok t, s) ∧ Yields (unescape mem') t l) ∧
    ∃ d, Yields (unescape mem') s d ∧ Yields (unescape mem') (s.withBuffer (l ++ [0])) d := by
  have hfew := h.length_lt
  refine ⟨fun hlt => ?_, _, unescape_yields mem' h.toHolds.shows (by omega),
    unescape_yields mem' h.toHolds.shows.clipped (by omega)⟩
  obtain ⟨t, ht, hs⟩ := escape_yields mem h.toHolds.shows hl hlt
  refine ⟨t, ht, ?_⟩
  have hback := unescape_yields mem' hs.toHolds.shows (by omega)
  rwa [if_pos hlt, Bytes.unescape_escape hl] at hback

theorem escape_round_trip_quoted : ∃ s t, Stores s [34, 1, 49, 10, 92, 120, 233, 48, 34] ∧
    escape (fun _ _ => 7) s = (.ok t, s) ∧ Yields (unescape (fun _ _ => 7))
      t [34, 1, 49, 10, 92, 120, 233, 48, 34] := by
  obtain ⟨s, -, h⟩ := create_copy (fun _ => 7) empty
    (by decide : ([34, 1, 49, 10, 92, 120, 233, 48, 34] : Bytes).length + 16 < 2 ^ 32)
  obtain ⟨t, ht, hback⟩ := (escape_round_trip h (by decide) (fun _ _ => 7) (fun _ _ => 7)).1 (by decide)
  exact ⟨s, t, h, ht, hback⟩

/-- 2³¹ letters: their number is a negative `int32`. -/
theorem not_escape_round_trip : ¬∀ (s : Str) (l : Bytes) (mem mem' : Nat → Nat → UInt8), Stores s l → (∀ b ∈ l, b ≠ 0) →
    ∃ t, escape mem s = (.ok t, s) ∧ Yields (unescape mem') t l := by
  intro hall
  obtain ⟨l, s, hlen, hletters, h⟩ := exists_long 97 [] (by decide)
  rw [List.append_nil] at h
  obtain ⟨t, ht, hback⟩ := hall s l (fun _ _ => 7) (fun _ _ => 7) h (fun b hb => by rw [hletters b hb]; decide)
  have hnone : (int32 s.string_length).toNat = 0 := by
    rw [int32_toNat (by rw [h.length_eq]; omega), if_neg (by rw [h.length_eq]; omega)]
  have hempty : escape (fun _ _ => 7) s = (.ok empty, s) := by
    unfold escape
    rw [get_bind, hnone]
    rfl
  rw [hempty] at ht
  cases ht
  have hnil := unescape_yields (fun _ _ => 7) empty_stores.toHolds.shows (by decide)
  rw [if_pos (by decide), show Bytes.unescape [] = [] from rfl] at hnil
  rw [Yields.inj hback hnil, List.length_nil] at hlen
  omega

end Str

end Srl
