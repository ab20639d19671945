import Srl.Bytes

namespace Srl

namespace Bytes

/-- The letter that stands for a character behind a backslash. -/
def named : UInt8 → Option UInt8
  | 10 => some 110
  | 13 => some 114
  | 8 => some 98
  | 11 => some 118
  | 7 => some 97
  | 12 => some 102
  | 9 => some 116
  | 92 => some 92
  | 34 => some 34
  | 39 => some 39
  | _ => none

/-- The character that a letter behind a backslash stands for. -/
def unnamed : UInt8 → Option UInt8
  | 110 => some 10
  | 114 => some 13
  | 98 => some 8
  | 118 => some 11
  | 97 => some 7
  | 102 => some 12
  | 116 => some 9
  | 92 => some 92
  | 34 => some 34
  | 39 => some 39
  | _ => none

def escapeChar (c : UInt8) : Bytes :=
  match named c with
  | some e => [92, e]
  | none => if c < 32 ∨ 127 < c then [92, 120, charAt HEX (c.toNat / 16), charAt HEX (c.toNat % 16)] else [c]

/-- The text that `String::escape` makes. -/
def escape (l : Bytes) : Bytes := l.flatMap escapeChar

def isxdigit (c : UInt8) : Bool := (48 ≤ c && c ≤ 57) || (65 ≤ c && c ≤ 70) || (97 ≤ c && c ≤ 102)

def xdigit (c : UInt8) : UInt8 := if 97 ≤ c then c - 97 + 10 else if 65 ≤ c then c - 65 + 10 else c - 48

def octal (c : UInt8) : Bool := 48 ≤ c && c ≤ 55

/-- The character that up to two digits behind an escape make, and how many of them it takes. -/
def digits (isdigit : UInt8 → Bool) (v₀ : UInt8) (v₁ : UInt8 → UInt8) (v₂ : UInt8 → UInt8 → UInt8)
    (l : Bytes) : UInt8 × Nat :=
  if isdigit (l.charAt 0) then
    if isdigit (l.charAt 1) then (v₂ (l.charAt 0) (l.charAt 1), 2) else (v₁ (l.charAt 0), 1)
  else (v₀, 0)

def hexEscape (l : Bytes) : UInt8 × Nat := digits isxdigit 120 xdigit (fun c d => xdigit c * 16 + xdigit d) l

def octalEscape (b : UInt8) (l : Bytes) : UInt8 × Nat :=
  digits octal (b - 48) (fun c => (b - 48) * 8 + (c - 48)) (fun c d => ((b - 48) * 8 + (c - 48)) * 8 + (d - 48)) l

/-- What `d` behind a backslash stands for. -/
def sequence (d : UInt8) (l : Bytes) : UInt8 × Nat :=
  match unnamed d with
  | some b => (b, 0)
  | none => if d = 120 then hexEscape l else if octal d then octalEscape d l else (d, 0)

/-- What `+=` appends: no `NUL`. -/
def kept (c : UInt8) : Bytes := if c = 0 then [] else [c]

def unescapeUpTo : Nat → Bytes → Bytes
  | n + 1, c :: l =>
    if c = 92 then
      match l with
      | [] => []
      | d :: l => kept (sequence d l).1 ++ unescapeUpTo n (l.drop (sequence d l).2)
    else kept c ++ unescapeUpTo n l
  | _, _ => []

/-- The text that `String::unescape` makes. -/
def unescape (l : Bytes) : Bytes := unescapeUpTo l.length l

variable {c d e : UInt8} {l w : Bytes} {n : Nat}

theorem named_spec (h : named c = some e) : unnamed e = some c := by
  unfold named at h
  split at h <;> cases h <;> rfl

theorem escapeChar_named (h : named c = some e) : escapeChar c = [92, e] := by
  unfold escapeChar
  rw [h]

theorem escapeChar_hex (h : named c = none) (hc : c < 32 ∨ 127 < c) :
    escapeChar c = [92, 120, charAt HEX (c.toNat / 16), charAt HEX (c.toNat % 16)] := by
  unfold escapeChar
  rw [h]
  exact if_pos hc

theorem escapeChar_plain (h : named c = none) (hc : ¬(c < 32 ∨ 127 < c)) : escapeChar c = [c] := by
  unfold escapeChar
  rw [h]
  exact if_neg hc

theorem HEX_spec (h : n < 16) :
    isxdigit (charAt HEX n) = true ∧ xdigit (charAt HEX n) = UInt8.ofNat n ∧ charAt HEX n ≠ 0 :=
  (by decide : ∀ n < 16, isxdigit (charAt HEX n) = true ∧ xdigit (charAt HEX n) = UInt8.ofNat n ∧ charAt HEX n ≠ 0) n h

theorem nibbles (c : UInt8) : UInt8.ofNat (c.toNat / 16) * 16 + UInt8.ofNat (c.toNat % 16) = c := by
  have hlt := c.toNat_lt
  apply UInt8.toNat.inj
  simp only [UInt8.toNat_add, UInt8.toNat_mul, UInt8.toNat_ofNat']
  show ((c.toNat / 16 % 2 ^ 8) * 16 % 2 ^ 8 + c.toNat % 16 % 2 ^ 8) % 2 ^ 8 = c.toNat
  omega

theorem kept_of_ne (h : c ≠ 0) : kept c = [c] := if_neg h

theorem unescapeUpTo_backslash (n : Nat) (d : UInt8) (l : Bytes) :
    unescapeUpTo (n + 1) (92 :: d :: l) = kept (sequence d l).1 ++ unescapeUpTo n (l.drop (sequence d l).2) := rfl

theorem unescapeUpTo_plain (hc : c ≠ 92) (n : Nat) (l : Bytes) :
    unescapeUpTo (n + 1) (c :: l) = kept c ++ unescapeUpTo n l := if_neg hc

theorem unescapeUpTo_nil (n : Nat) : unescapeUpTo n [] = [] := by
  cases n <;> rfl

/-- One round gives back an escaped character, whatever follows it. -/
theorem unescapeUpTo_escapeChar (hc : c ≠ 0) (n : Nat) (w : Bytes) :
    unescapeUpTo (n + 1) (escapeChar c ++ w) = c :: unescapeUpTo n w := by
  cases he : named c with
  | some e =>
    have hsequence : sequence e w = (c, 0) := by rw [sequence, named_spec he]
    rw [escapeChar_named he]
    show unescapeUpTo (n + 1) (92 :: e :: w) = _
    rw [unescapeUpTo_backslash, hsequence, kept_of_ne hc]
    rfl
  | none =>
    by_cases hhex : c < 32 ∨ 127 < c
    · obtain ⟨hhigh, hhigh', -⟩ := HEX_spec (by have := c.toNat_lt; omega : c.toNat / 16 < 16)
      obtain ⟨hlow, hlow', -⟩ := HEX_spec (Nat.mod_lt c.toNat (by decide : 0 < 16))
      have hsequence : sequence 120 (charAt HEX (c.toNat / 16) :: charAt HEX (c.toNat % 16) :: w) = (c, 2) := by
        show (if isxdigit (charAt HEX (c.toNat / 16)) then if isxdigit (charAt HEX (c.toNat % 16)) then
          (xdigit (charAt HEX (c.toNat / 16)) * 16 + xdigit (charAt HEX (c.toNat % 16)), 2) else _ else _) = _
        rw [if_pos hhigh, if_pos hlow, hhigh', hlow', nibbles]
      rw [escapeChar_hex he hhex]
      show unescapeUpTo (n + 1) (92 :: 120 :: charAt HEX (c.toNat / 16) :: charAt HEX (c.toNat % 16) :: w) = _
      rw [unescapeUpTo_backslash, hsequence, kept_of_ne hc]
      rfl
    · have hplain : c ≠ 92 := by
        rintro rfl
        cases he
      rw [escapeChar_plain he hhex, List.singleton_append, unescapeUpTo_plain hplain, kept_of_ne hc]
      rfl

theorem length_le_escape (l : Bytes) : l.length ≤ (escape l).length := by
  induction l with
  | nil => exact Nat.le_refl _
  | cons c l ih =>
    have hchar : 1 ≤ (escapeChar c).length := by
      unfold escapeChar
      split
      next => exact Nat.le_succ 1
      next => split <;> exact Nat.succ_le_succ (Nat.zero_le _)
    rw [escape, List.flatMap_cons, List.length_append, List.length_cons]
    rw [escape] at ih
    omega

theorem unescape_escape (h : ∀ c ∈ l, c ≠ 0) : unescape (escape l) = l := by
  obtain ⟨n, hn⟩ : ∃ n, n = (escape l).length := ⟨_, rfl⟩
  have hle := length_le_escape l
  rw [unescape, ← hn]
  rw [← hn] at hle
  clear hn
  induction l generalizing n with
  | nil => exact unescapeUpTo_nil n
  | cons c l ih =>
    obtain ⟨n, rfl⟩ := Nat.exists_eq_succ_of_ne_zero (Nat.ne_of_gt (Nat.lt_of_lt_of_le (Nat.zero_lt_succ _) hle))
    rw [escape, List.flatMap_cons, unescapeUpTo_escapeChar (h c List.mem_cons_self)]
    exact congrArg _ (ih (fun b hb => h b (List.mem_cons_of_mem _ hb)) n (Nat.le_of_succ_le_succ hle))

/-- A digit is not the terminator, so that a sequence ends with the text at the latest. -/
theorem lt_of_digit {p : UInt8 → Bool} (hp : p 0 = false) (h : p (l.charAt n) = true) : n < l.length := by
  by_contra hge
  rw [charAt, List.getD_eq_getElem?_getD, List.getElem?_eq_none (Nat.le_of_not_lt hge), Option.getD_none, hp] at h
  cases h

theorem digits_le {isdigit : UInt8 → Bool} (hzero : isdigit 0 = false) (v₀ : UInt8) (v₁ : UInt8 → UInt8)
    (v₂ : UInt8 → UInt8 → UInt8) (l : Bytes) : (digits isdigit v₀ v₁ v₂ l).2 ≤ l.length := by
  unfold digits
  split
  next hone =>
    split
    next htwo => exact lt_of_digit hzero htwo
    next => exact lt_of_digit hzero hone
  next => exact Nat.zero_le _

theorem sequence_le (d : UInt8) (l : Bytes) : (sequence d l).2 ≤ l.length := by
  unfold sequence
  split
  next => exact Nat.zero_le _
  next =>
    split
    next => exact digits_le rfl _ _ _ l
    next =>
      split
      next => exact digits_le rfl _ _ _ l
      next => exact Nat.zero_le _

theorem length_kept (c : UInt8) : (kept c).length ≤ 1 := by
  unfold kept
  split
  next => exact Nat.zero_le _
  next => exact Nat.le_refl _

end Bytes

end Srl
