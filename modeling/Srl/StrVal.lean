import Srl.Numerals
import Srl.StrCut

namespace Srl

open Cells Session

namespace Str

/-- `char buf[34]` and the pointer `p` into it. -/
structure Digits where
  buf : Vector UInt8 34
  p : Fin 34

namespace Digits

/-- What stands in the buffer from `p` on. -/
def text (s : Digits) : Bytes := s.buf.toList.drop s.p

/-- `*p = c`. -/
def store (c : UInt8) : Method Digits Stop Unit := modify fun s => { s with buf := s.buf.set s.p c }

/-- `*--p = c`; in front of `buf` there is nothing to write to. -/
def push (c : UInt8) : Method Digits Stop Unit := do
  let s ← get
  if s.p = 0 then throw .fault
  else
    set { s with p := s.p - 1 }
    store c

def digitLoop (base : Nat) : Nat → Nat → Method Digits Stop Unit
  | 0, _ => throw .unfinished
  | rounds + 1, nn => do
    push (Bytes.charAt Bytes.HEX (nn % base))
    if nn / base ≠ 0 then digitLoop base rounds (nn / base) else pure ()

/-- What `String::Val` writes; the answer is the text that `String(p, buf+33-p)` copies. -/
def write (base nn : Nat) (negative : Bool) : Method Digits Stop Bytes := do
  store 0
  digitLoop base 34 nn
  if negative then push 45 else pure ()
  let s ← get
  pure (window s.buf.toList s.p 33)

end Digits

/-- `String::Val` for the magnitude `nn`. -/
def val (fresh : Nat → UInt8) (buf : Vector UInt8 34) (base : Int32) (nn : Nat) (negative : Bool) : Call Str :=
  if base < 2 ∨ 16 < base then pure empty
  else
    match Digits.write base.toUInt32.toNat nn negative ⟨buf, 33⟩ with
    | (.ok d, _) => create (copy fresh d)
    | (.error e, _) => throw e

/-- `String::Val(int32, base)`. -/
def valInt32 (fresh : Nat → UInt8) (buf : Vector UInt8 34) (num base : Int32) : Call Str :=
  val fresh buf base (if num < 0 then (~~~num).toUInt32 + 1 else num.toUInt32).toNat (num < 0)

/-- `String::Val(uint32, base)`. -/
def valUInt32 (fresh : Nat → UInt8) (buf : Vector UInt8 34) (num : UInt32) (base : Int32) : Call Str :=
  val fresh buf base num.toNat false

/-- The C string at `text()`. -/
def cText : Call Bytes := do bytesAt 0 (← strlen 0)

/-- `String::Int`. -/
def int (base : Int32) : Call Int32 := do
  pure (Bytes.int (← cText) base.toUInt32.toNat)

/-- `String::UInt`. -/
def uint (base : Int32) : Call UInt32 := do
  pure (Bytes.uint (← cText) base.toUInt32.toNat)

namespace Digits

variable {s : Digits} {base nn k rounds : Nat} {c : UInt8}

theorem length_text (s : Digits) : s.text.length + s.p = 34 := by
  have hlt := s.p.isLt
  rw [text, List.length_drop, Vector.length_toList]
  omega

theorem store_text (s : Digits) (c : UInt8) :
    ∃ s', store c s = (.ok (), s') ∧ s'.p = s.p ∧ s'.text = c :: s.text.tail := by
  refine ⟨_, rfl, rfl, ?_⟩
  have hlt : s.p.val < s.buf.toList.length := by
    rw [Vector.length_toList]
    exact s.p.isLt
  show (s.buf.set s.p c).toList.drop s.p = _
  rw [Vector.toList_set, text, List.tail_drop, List.set_eq_take_append_cons_drop, if_pos hlt]
  exact List.drop_left' (List.length_take_of_le (Nat.le_of_lt hlt))

theorem push_text (c : UInt8) (h : s.text.length < 34) :
    ∃ s', push c s = (.ok (), s') ∧ s'.text = c :: s.text := by
  have hlen := s.length_text
  have hne : s.p ≠ 0 := by
    intro hzero
    rw [hzero] at hlen
    omega
  have hval : (s.p - 1).val = s.p - 1 := Fin.val_sub_one_of_ne_zero hne
  have hpos : 0 < s.p.val := Nat.pos_of_ne_zero fun hzero => hne (Fin.ext hzero)
  obtain ⟨s', hs', -, htext⟩ := store_text { s with p := s.p - 1 } c
  refine ⟨s', ?_, ?_⟩
  · unfold push
    rw [get_bind, if_neg hne]
    exact hs'
  · have htail : text { s with p := s.p - 1 } = s.buf.toList.drop (s.p - 1) := by rw [text, hval]
    rw [htext, htail, List.tail_drop, text, Nat.sub_add_cancel hpos]

/-- The loop writes the digits of its number, as long as there is room in the buffer. -/
theorem digitLoop_text (hk : 0 < k) (hnn : nn < base ^ k) (hroom : s.text.length + k ≤ 34) (hrounds : k ≤ rounds) :
    ∃ s', digitLoop base rounds nn s = (.ok (), s') ∧ s'.text = Bytes.numeral base k nn s.text := by
  induction k generalizing rounds nn s with
  | zero => exact absurd hk (Nat.lt_irrefl 0)
  | succ k ih =>
    obtain ⟨rounds, rfl⟩ := Nat.exists_eq_succ_of_ne_zero (Nat.ne_zero_of_lt hrounds)
    obtain ⟨s₁, hs₁, htext⟩ := push_text (Bytes.charAt Bytes.HEX (nn % base)) (by omega : s.text.length < 34)
    rw [digitLoop, bind_ok hs₁, Bytes.numeral, ← htext]
    have hsmall : nn / base < base ^ k := Nat.div_lt_of_lt_mul (by rwa [Nat.pow_succ'] at hnn)
    split
    next hz =>
      have hpos : 0 < k := by
        refine Nat.pos_of_ne_zero fun hzero => hz ?_
        rw [hzero, Nat.pow_zero] at hsmall
        exact Nat.lt_one_iff.mp hsmall
      have hlen := congrArg List.length htext
      rw [List.length_cons] at hlen
      exact ih hpos hsmall (by omega) (by omega)
    next => exact ⟨s₁, rfl, rfl⟩

/-- The text between `p` and the terminator. -/
theorem window_text {d : Bytes} (h : s.text = d ++ [0]) : window s.buf.toList s.p 33 = d := by
  have hlen := s.length_text
  have hd := congrArg List.length h
  rw [List.length_append, List.length_singleton] at hd
  rw [window, List.drop_take, show s.buf.toList.drop s.p = d ++ [0] from h]
  exact List.take_left' (by omega)

/-- A number of up to 33 digits fits the buffer with its terminator, and one of up to 32 also with a sign. -/
theorem write_eq (hnn : nn < base ^ 33) (negative : Bool) (hsign : negative = true → nn < base ^ 32)
    (buf : Vector UInt8 34) :
    ∃ s', write base nn negative ⟨buf, 33⟩ =
      (.ok (if negative then 45 :: Bytes.numeral base 33 nn [] else Bytes.numeral base 33 nn []), s') := by
  obtain ⟨s₁, hs₁, hp, htext⟩ := store_text ⟨buf, 33⟩ 0
  have hlen := s₁.length_text
  have hthree : s₁.p.val = 33 := congrArg Fin.val hp
  have hone : s₁.text = [0] := by
    rw [htext, List.length_cons] at hlen
    rw [htext, List.cons_inj_right]
    exact List.eq_nil_of_length_eq_zero (by omega)
  have hroom := congrArg List.length hone
  rw [List.length_singleton] at hroom
  obtain ⟨s₂, hs₂, htext⟩ := @digitLoop_text s₁ base nn 33 34 (by decide) hnn (by omega) (by decide)
  rw [hone, ← List.nil_append [0], Bytes.numeral_append] at htext
  unfold write
  rw [bind_ok hs₁, bind_ok hs₂]
  cases negative with
  | false => exact ⟨s₂, congrArg (fun d => (Except.ok d, s₂)) (window_text htext)⟩
  | true =>
    have hle := Bytes.length_numeral_le (by decide) 33 nn [] (hsign rfl)
    have hshort : s₂.text.length < 34 := by
      rw [List.length_nil] at hle
      rw [htext, List.length_append, List.length_singleton]
      omega
    obtain ⟨s₃, hs₃, hsign⟩ := push_text 45 hshort
    rw [htext] at hsign
    rw [if_pos rfl, bind_ok hs₃]
    exact ⟨s₃, congrArg (fun d => (Except.ok d, s₃)) (window_text hsign)⟩

end Digits

variable {s : Str} {l : Bytes} {base : Int32} {nn : Nat}

theorem bounds_toUInt32 (base : Int32) : (base < 2 ∨ 16 < base) ↔ base.toUInt32 < 2 ∨ 16 < base.toUInt32 := by
  have hint := Bytes.toInt_eq base
  have hlt := base.toUInt32.toNat_lt
  rw [Int32.lt_iff_toInt_lt, Int32.lt_iff_toInt_lt, UInt32.lt_iff_toNat_lt, UInt32.lt_iff_toNat_lt]
  simp only [Int32.reduceToInt, UInt32.reduceToNat]
  split at hint <;> omega

theorem bounds_of_le (hb : 2 ≤ base ∧ base ≤ 16) : ¬(base < 2 ∨ 16 < base) := by
  rw [not_or, Int32.not_lt, Int32.not_lt]
  exact hb

theorem val_yields (fresh : Nat → UInt8) (buf : Vector UInt8 34) (hb : ¬(base < 2 ∨ 16 < base))
    (hnn : nn < base.toUInt32.toNat ^ 33) (negative : Bool) (hsign : negative = true → nn < base.toUInt32.toNat ^ 32)
    (s : Str) : Yields (val fresh buf base nn negative) s
      (if negative then 45 :: Bytes.numeral base.toUInt32.toNat 33 nn []
        else Bytes.numeral base.toUInt32.toNat 33 nn []) := by
  obtain ⟨t, ht⟩ := Digits.write_eq hnn negative hsign buf
  have hle := Bytes.length_numeral_le (by decide) 33 nn [] hnn
  rw [List.length_nil] at hle
  unfold val
  rw [if_neg hb, ht]
  refine create_copy fresh s ?_
  split
  next =>
    rw [List.length_cons]
    omega
  next => omega

/-- In every base a 32-bit number has up to 32 digits. -/
theorem lt_pow_of_bounds (hb : ¬(base < 2 ∨ 16 < base)) (hnn : nn < 2 ^ 32) :
    nn < base.toUInt32.toNat ^ 33 ∧ nn < base.toUInt32.toNat ^ 32 := by
  have hbase := Bytes.bounds_iff.mp ((bounds_toUInt32 base).not.mp hb)
  have hpow : 2 ^ 32 ≤ base.toUInt32.toNat ^ 32 := Nat.pow_le_pow_left hbase.1 32
  have hmore : base.toUInt32.toNat ^ 32 ≤ base.toUInt32.toNat ^ 33 := Nat.pow_le_pow_right (by omega) (by decide)
  exact ⟨by omega, by omega⟩

theorem val_of_bounds (fresh : Nat → UInt8) (buf : Vector UInt8 34) (hb : base < 2 ∨ 16 < base) (nn : Nat)
    (negative : Bool) (s : Str) : Yields (val fresh buf base nn negative) s [] :=
  ⟨empty, by rw [val, if_pos hb]; rfl, empty_stores⟩

/-- The buffer is large enough for every `int32`, in every base. -/
theorem valInt32_yields (fresh : Nat → UInt8) (buf : Vector UInt8 34) (num base : Int32) (s : Str) :
    Yields (valInt32 fresh buf num base) s (Bytes.val num base.toUInt32) := by
  unfold valInt32 Bytes.val
  by_cases hb : base < 2 ∨ 16 < base
  · rw [if_pos ((bounds_toUInt32 base).mp hb)]
    exact val_of_bounds fresh buf hb _ _ s
  · rw [if_neg ((bounds_toUInt32 base).not.mp hb)]
    obtain ⟨hmore, hpow⟩ := lt_pow_of_bounds hb
      (UInt32.toNat_lt (if num < 0 then (~~~num).toUInt32 + 1 else num.toUInt32))
    have hyields := val_yields fresh buf hb hmore (num < 0) (fun _ => hpow) s
    rw [← Bytes.valLoop_eq] at hyields
    simpa only [decide_eq_true_eq] using hyields

theorem valUInt32_yields (fresh : Nat → UInt8) (buf : Vector UInt8 34) (num : UInt32) (base : Int32) (s : Str) :
    Yields (valUInt32 fresh buf num base) s (Bytes.valUInt32 num base.toUInt32) := by
  unfold valUInt32 Bytes.valUInt32
  by_cases hb : base < 2 ∨ 16 < base
  · rw [if_pos ((bounds_toUInt32 base).mp hb)]
    exact val_of_bounds fresh buf hb _ _ s
  · rw [if_neg ((bounds_toUInt32 base).not.mp hb), Bytes.valLoop_eq]
    obtain ⟨hmore, hpow⟩ := lt_pow_of_bounds hb num.toNat_lt
    exact val_yields fresh buf hb hmore false (fun _ => hpow) s

theorem cText_eq (h : Stores s l) : cText s = (.ok (Bytes.cstr l), s) := by
  have hs := h.toHolds.shows
  have hpre : Bytes.cstr l <+: l := List.takeWhile_prefix _
  have hshort := hpre.length_le
  unfold cText
  rw [bind_ok (hs.strlen_eq (Nat.zero_le _)), List.drop_zero, hs.bytesAt_eq (by omega), Nat.zero_add, window_zero,
    ← List.prefix_iff_eq_take.mp hpre]

theorem cstr_digits {b : Nat} {ds : Bytes} (hds : ∀ c ∈ ds, Bytes.IsDigit b c ∧ c < 71) : ∀ c ∈ ds, c ≠ 0 := by
  rintro c hc rfl
  obtain ⟨n, -, hn⟩ := (hds 0 hc).1
  cases hn

/-- No digit ends the text, and neither does the sign in front of them. -/
theorem cstr_signed {b : Nat} {ds : Bytes} {p : Prop} [Decidable p] (hds : ∀ c ∈ ds, Bytes.IsDigit b c ∧ c < 71) :
    ∀ c ∈ (if p then 45 :: ds else ds), c ≠ 0 := by
  split
  next => exact List.forall_mem_cons.mpr ⟨by decide, cstr_digits hds⟩
  next => exact cstr_digits hds

/-- What `String::Val` writes stays in its buffer, and `String::Int` and `String::UInt` read the number back. -/
theorem val_read_back (fresh : Nat → UInt8) (buf : Vector UInt8 34) (hb : 2 ≤ base ∧ base ≤ 16) (s : Str) :
    (∀ num : Int32, ∃ t, valInt32 fresh buf num base s = (.ok t, s) ∧ int base t = (.ok num, t)) ∧
    ∀ num : UInt32, ∃ t, valUInt32 fresh buf num base s = (.ok t, s) ∧ uint base t = (.ok num, t) := by
  have hbase := Bytes.bounds_iff.mp ((bounds_toUInt32 base).not.mp (bounds_of_le hb))
  constructor
  · intro num
    obtain ⟨t, ht, hstores⟩ := valInt32_yields fresh buf num base s
    obtain ⟨ds, -, hds, -, hval⟩ := Bytes.val_spec base.toUInt32 hbase num
    have hnul : ∀ c ∈ Bytes.val num base.toUInt32, c ≠ 0 := by
      rw [hval]
      exact cstr_signed hds
    refine ⟨t, ht, ?_⟩
    unfold int
    rw [bind_ok (cText_eq hstores), Bytes.cstr_of_ne hnul, Bytes.int_val base.toUInt32 hbase num]
    rfl
  · intro num
    obtain ⟨t, ht, hstores⟩ := valUInt32_yields fresh buf num base s
    obtain ⟨ds, -, hds, -, hval⟩ := Bytes.valUInt32_spec base.toUInt32 hbase num
    have hnul : ∀ c ∈ Bytes.valUInt32 num base.toUInt32, c ≠ 0 := by
      rw [hval]
      exact cstr_digits hds
    refine ⟨t, ht, ?_⟩
    unfold uint
    rw [bind_ok (cText_eq hstores), Bytes.cstr_of_ne hnul, Bytes.uint_valUInt32 base.toUInt32 hbase num]
    rfl

/-- `INT_MIN` and `UINT_MAX` in base 2, where they are longest. -/
theorem val_read_back_binary :
    (∃ t, valInt32 (fun _ => 7) (Vector.replicate 34 170) (-2147483648) 2 empty = (.ok t, empty) ∧
      int 2 t = (.ok (-2147483648), t)) ∧
    ∃ t, valUInt32 (fun _ => 7) (Vector.replicate 34 170) 4294967295 2 empty = (.ok t, empty) ∧
      uint 2 t = (.ok 4294967295, t) :=
  ⟨(val_read_back (fun _ => 7) (Vector.replicate 34 170) (by decide) empty).1 (-2147483648),
    (val_read_back (fun _ => 7) (Vector.replicate 34 170) (by decide) empty).2 4294967295⟩

end Str

end Srl
