import Srl.StrCut

namespace Srl

open Cells Session Occurrences

namespace Str

/-- The value of an `int32`, and its conversion to a `uint32`. -/
def int32 (i : Int) : Int := i.bmod (2 ^ 32)

def uint32 (i : Int) : Nat := (i % 2 ^ 32).toNat

/-- `_str[i]` for an `int32` index, which may stand in front of the buffer. -/
def readAt (i : Int) : Call UInt8 := if i < 0 then throw .fault else read i.toNat

/-- The loop that passes over the delimiters behind `stop_pos`. -/
def skipLoop (delim : UInt8) : Nat → Int → Call Int
  | 0, _ => throw .unfinished
  | rounds + 1, stop_pos => do
    if (← readAt (int32 (stop_pos + 1))) = delim then skipLoop delim rounds (int32 (stop_pos + 1)) else pure stop_pos

def skip (delim : UInt8) (allow_null : Bool) (stop_pos : Int) : Call Int :=
  if allow_null then pure stop_pos
  else do skipLoop delim ((← get).memory.length + 1) stop_pos

/-- Where the loop of `section` stops. -/
structure Field where
  start_pos : Int
  stop_pos : Int
  count : Int

def fieldLoop (delim : UInt8) (field_num : Int) (allow_null : Bool) : Nat → Int → Int → Call Field
  | 0, _, _ => throw .unfinished
  | rounds + 1, stop_pos, count => do
    let stop_pos ← skip delim allow_null stop_pos
    let start_pos := int32 (stop_pos + 1)
    let stop_pos ← find delim (uint32 start_pos)
    let count := int32 (count + 1)
    if count < field_num ∧ stop_pos ≠ -1 then fieldLoop delim field_num allow_null rounds stop_pos count
    else pure ⟨start_pos, stop_pos, count⟩

/-- `section(char)`. -/
def sectionChar (fresh : Nat → UInt8) (delim : UInt8) (field_num : Nat) (allow_null : Bool) : Call Str := do
  let self ← get
  let field ← fieldLoop delim (int32 field_num) allow_null (self.memory.length + 1) (-1) (-1)
  if field.stop_pos = -1 ∧ field.count ≠ int32 field_num then null fresh
  else
    let stop_pos := if field.stop_pos = -1 then int32 self.string_length else field.stop_pos
    mid fresh (uint32 field.start_pos) (uint32 (stop_pos - field.start_pos))

/-- The loop of `count`: the characters found from `cpos` on. -/
def countLoop (ch : UInt8) : Nat → Option Nat → Nat → Call Nat
  | 0, _, _ => throw .unfinished
  | _ + 1, none, ch_count => pure ch_count
  | rounds + 1, some cpos, ch_count => do
    let next ← charLoop ch ((← get).memory.length + 1) (cpos + 1)
    countLoop ch rounds next ((ch_count + 1) % 2 ^ 32)

def count (ch : UInt8) : Call Nat := do
  let self ← get
  let cpos ← charLoop ch (self.memory.length + 1) 0
  countLoop ch (self.memory.length + 1) cpos 0

variable {s : Str} {l front w : Bytes} {c : UInt8} {n : Nat}

theorem int32_emod (i : Int) : int32 i % 2 ^ 32 = i % 2 ^ 32 := by
  have hmod := @Int.bmod_emod i (2 ^ 32)
  push_cast at hmod
  exact hmod

theorem uint32_int32 (i : Int) : uint32 (int32 i) = uint32 i := by
  rw [uint32, int32_emod, uint32]

theorem int32_add (i j : Int) : int32 (int32 i + j) = int32 (i + j) := by
  rw [int32, int32, Int.bmod_add_bmod]
  rfl

theorem int32_sub_one (i : Int) : int32 (int32 (i - 1) + 1) = int32 i := by
  rw [int32_add, Int.sub_add_cancel]

theorem uint32_sub (i j : Int) : uint32 (int32 i - int32 j) = uint32 (i - j) := by
  rw [uint32, Int.sub_emod, int32_emod, int32_emod, ← Int.sub_emod, uint32]

theorem uint32_of_lt (h : n < 2 ^ 32) : uint32 n = n := by
  unfold uint32
  omega

theorem int32_of_lt (h : n < 2 ^ 31) : int32 n = n := bmod_of_lt h

theorem int32_neg (h : 2 ^ 31 ≤ n) (hn : n < 2 ^ 32) : int32 n < 0 := by
  rw [int32, bmod_of_ge h hn]
  omega

theorem readAt_natCast (h : n < 2 ^ 31) : readAt (int32 n) = read n := by
  rw [int32_of_lt h, readAt, if_neg (Int.not_lt.mpr (Int.natCast_nonneg n)), Int.toNat_natCast]

theorem readAt_neg {i : Int} (h : i < 0) (s : Str) : readAt i s = (.error .fault, s) := by
  rw [readAt, if_pos h]
  rfl

/-- Where the loop stands behind a delimiter. -/
theorem int32_behind (front : Bytes) (c : UInt8) : int32 front.length = int32 ((front ++ [c]).length - 1) := by
  rw [List.length_append, List.length_singleton, Nat.cast_add, Nat.cast_one, add_sub_cancel_right]

theorem int32_neg_one : int32 (0 - 1) = -1 := by decide

theorem int32_ne_neg_one (h : n + 1 < 2 ^ 32) : int32 n ≠ -1 := by
  intro heq
  have huint := uint32_int32 n
  rw [heq, uint32_of_lt (by omega)] at huint
  have hone : uint32 (-1) = 2 ^ 32 - 1 := by decide
  omega

/-- A text up to its first delimiter, if it has one. -/
theorem delimited (c : UInt8) (w : Bytes) : c ∉ w ∨ ∃ x v, w = x ++ c :: v ∧ c ∉ x := by
  by_cases hc : c ∈ w
  · exact .inr (List.eq_append_cons_of_mem hc)
  · exact .inl hc

theorem find_delimited {x v : Bytes} (hl : ∀ b ∈ l, b ≠ 0) (hc : c ≠ 0) (hw : l = front ++ (x ++ c :: v)) (hx : c ∉ x) :
    position (l.find c front.length) = int32 (front ++ x).length := by
  have hdrop : l.drop front.length = x ++ c :: v := by rw [hw, List.drop_left]
  have hmem : ∀ b ∈ x, b ≠ c ∧ b ≠ 0 := fun b hb =>
    ⟨fun he => hx (he ▸ hb), hl b (by rw [hw]; simp [hb])⟩
  rw [Bytes.find_eq hdrop hc hmem, ← List.length_append]
  rfl

theorem find_undelimited (hc : c ≠ 0) (hw : l = front ++ w) (hx : c ∉ w) : position (l.find c front.length) = -1 := by
  rw [Bytes.find_eq_none hc fun b hb he => hx (by rwa [hw, List.drop_left, he] at hb)]
  rfl

theorem skip_null (c : UInt8) (i : Int) (s : Str) : skip c true i s = (.ok i, s) := by
  rw [skip, if_pos rfl]
  rfl

/-- One round, which starts behind `front`. -/
theorem fieldLoop_round {allow_null : Bool} {stop_pos : Int} {count field_num : Int} {rounds : Nat} (h : Shows s l)
    (hfew : l.length + 16 < 2 ^ 32) (hw : l = front ++ w) (hcount : -1 ≤ count) (hsmall : count + 1 < 2 ^ 31)
    (hskip : skip c allow_null stop_pos s = (.ok (int32 (front.length - 1)), s)) :
    fieldLoop c field_num allow_null (rounds + 1) stop_pos count s =
      if count + 1 < field_num ∧ position (l.find c front.length) ≠ -1 then
        fieldLoop c field_num allow_null rounds (position (l.find c front.length)) (count + 1) s
      else (.ok ⟨int32 front.length, position (l.find c front.length), count + 1⟩, s) := by
  have hle : front.length ≤ l.length := by
    rw [hw, List.length_append]
    omega
  have hone : int32 (count + 1) = count + 1 := by
    obtain ⟨k, hk⟩ := Int.eq_ofNat_of_zero_le (by omega : 0 ≤ count + 1)
    rw [hk]
    exact int32_of_lt (by omega)
  rw [fieldLoop, bind_ok hskip]
  dsimp only
  rw [int32_sub_one, uint32_int32, uint32_of_lt (by omega), bind_ok (h.find_eq c hle), hone]
  split <;> rfl

theorem sectionChar_eq {allow_null : Bool} {field : Field} (fresh : Nat → UInt8)
    (hrun : fieldLoop c (int32 n) allow_null (s.memory.length + 1) (-1) (-1) s = (.ok field, s)) :
    sectionChar fresh c n allow_null s =
      (if field.stop_pos = -1 ∧ field.count ≠ int32 n then null fresh
      else mid fresh (uint32 field.start_pos)
        (uint32 ((if field.stop_pos = -1 then int32 s.string_length else field.stop_pos) - field.start_pos))) s := by
  unfold sectionChar
  rw [get_bind, bind_ok hrun]

/-- The text of the field at which the loop stops; an empty one takes along what stands behind it. -/
theorem sectionChar_found {allow_null : Bool} {field : Field} {Q x v : Bytes} (fresh : Nat → UInt8) (h : Shows s l)
    (hl : ∀ b ∈ l, b ≠ 0) (hfew : l.length + 16 < 2 ^ 32) (hw : l = Q ++ (x ++ v))
    (hrun : fieldLoop c (int32 n) allow_null (s.memory.length + 1) (-1) (-1) s = (.ok field, s))
    (hstart : field.start_pos = int32 Q.length) (hstop : field.stop_pos = if v = [] then -1 else int32 (Q ++ x).length)
    (hcount : field.stop_pos = -1 → field.count = int32 n) :
    Yields (sectionChar fresh c n allow_null) s (if x = [] then v else x) := by
  have hlen := congrArg List.length hw
  simp only [List.length_append] at hlen
  have hend : (if field.stop_pos = -1 then int32 s.string_length else field.stop_pos) = int32 (Q ++ x).length := by
    by_cases hv : v = []
    · rw [hstop, if_pos hv, if_pos rfl, h.length_eq, hw, hv, List.append_nil]
    · rw [hstop, if_neg hv, if_neg (int32_ne_neg_one (by rw [List.length_append]; omega))]
  have hsub : uint32 (int32 (Q ++ x).length - int32 Q.length) = x.length := by
    rw [uint32_sub, List.length_append, Nat.cast_add, add_sub_cancel_left, uint32_of_lt (by omega)]
  have hyields := h.mid_yields fresh hfew (by omega : Q.length + x.length ≤ l.length)
  have hcut : (if x.length = 0 then Bytes.cstr (l.drop Q.length) else window l Q.length (Q.length + x.length)) =
      if x = [] then v else x := by
    by_cases hx : x = []
    · have hzero : x.length = 0 := by rw [hx, List.length_nil]
      rw [if_pos hzero, if_pos hx, Bytes.cstr_of_ne fun b hb => hl b (List.mem_of_mem_drop hb), hw, List.drop_left, hx,
        List.nil_append]
    · rw [if_neg (by simpa using hx), if_neg hx, hw]
      exact window_middle Q x v
  rw [Yields, sectionChar_eq fresh hrun, if_neg (fun hneg => hneg.2 (hcount hneg.1)), hend, hstart, uint32_int32, hsub,
    uint32_of_lt (by omega), ← hcut]
  exact hyields

theorem sectionChar_missing {allow_null : Bool} {field : Field} (fresh : Nat → UInt8) (h : Shows s l)
    (hfew : l.length + 16 < 2 ^ 32)
    (hrun : fieldLoop c (int32 n) allow_null (s.memory.length + 1) (-1) (-1) s = (.ok field, s))
    (hstop : field.stop_pos = -1) (hwhere : field.count ≠ int32 n ∨ field.start_pos = int32 l.length) :
    Yields (sectionChar fresh c n allow_null) s [] := by
  rw [Yields, sectionChar_eq fresh hrun]
  by_cases hcount : field.count = int32 n
  · have hstart := hwhere.resolve_left fun hne => hne hcount
    have hyields := h.mid_yields fresh hfew (Nat.le_refl (l.length + 0))
    rw [if_pos rfl, List.drop_length] at hyields
    have hsub : uint32 (int32 l.length - int32 l.length) = 0 := by
      rw [Int.sub_self]
      rfl
    rw [if_neg (fun hneg => hneg.2 hcount), if_pos hstop, hstart, h.length_eq, hsub, uint32_int32,
      uint32_of_lt (by omega)]
    exact hyields
  · rw [if_pos ⟨hstop, hcount⟩]
    exact null_yields fresh s

/-- With empty fields the loop stops at piece number `d` of what it has not yet passed, or behind the last one. -/
theorem fieldLoop_null {rounds d : Nat} {count field_num : Int} (h : Shows s l) (hl : ∀ b ∈ l, b ≠ 0)
    (hfew : l.length + 16 < 2 ^ 32) (hc : c ≠ 0) (hw : l = front ++ w) (hrounds : w.length < rounds)
    (hcount : -1 ≤ count) (hd : count + 1 + d = field_num) (hsmall : field_num < 2 ^ 31) :
    ∃ field, fieldLoop c field_num true rounds (int32 (front.length - 1)) count s = (.ok field, s) ∧
      (∀ x, (w.splitOn c)[d]? = some x → ∃ Q v, l = Q ++ (x ++ v) ∧ x ++ v = [c].intercalate ((w.splitOn c).drop d) ∧
        field.start_pos = int32 Q.length ∧ field.stop_pos = (if v = [] then -1 else int32 (Q ++ x).length) ∧
        field.count = field_num) ∧
      ((w.splitOn c)[d]? = none → field.stop_pos = -1 ∧ field.count ≠ field_num) := by
  induction rounds generalizing front w count d with
  | zero => exact absurd hrounds (Nat.not_lt_zero _)
  | succ rounds ih =>
    rw [fieldLoop_round h hfew hw hcount (by omega) (skip_null c _ s)]
    rcases delimited c w with hnone | ⟨x, v, rfl, hx⟩
    · rw [find_undelimited hc hw hnone, if_neg fun hgo => hgo.2 rfl, List.splitOn_eq_singleton hnone]
      refine ⟨_, rfl, fun x hx => ?_, fun hmiss => ⟨rfl, ?_⟩⟩
      · cases d with
        | zero =>
          cases hx
          refine ⟨front, [], by rw [List.append_nil]; exact hw, by simp, by dsimp only, rfl, ?_⟩
          show count + 1 = field_num
          omega
        | succ d => cases hx
      · cases d with
        | zero => cases hmiss
        | succ d =>
          show count + 1 ≠ field_num
          omega
    · have hnext : position (l.find c front.length) = int32 (front ++ x).length := find_delimited hl hc hw hx
      have hlen := congrArg List.length hw
      simp only [List.length_append, List.length_cons] at hlen hrounds
      have hne : int32 (front ++ x).length ≠ -1 := int32_ne_neg_one (by rw [List.length_append]; omega)
      rw [hnext, List.splitOn_append_cons_self_of_not_mem hx]
      cases d with
      | zero =>
        rw [if_neg (by omega)]
        refine ⟨_, rfl, fun y hy => ?_, fun hmiss => by cases hmiss⟩
        cases hy
        refine ⟨front, c :: v, hw, ?_, by dsimp only, ?_, ?_⟩
        · rw [List.drop_zero, List.intercalate_cons_of_ne_nil (List.splitOn_ne_nil c v), List.intercalate_splitOn]
          simp
        · rw [if_neg (List.cons_ne_nil c v)]
        · show count + 1 = field_num
          omega
      | succ d =>
        rw [if_pos ⟨by omega, hne⟩]
        rw [int32_behind (front ++ x) c]
        exact ih (by rw [hw]; simp) (by omega) (by omega) (by omega)

theorem countLoop_eq {rounds k : Nat} (h : Shows s l) (hl : ∀ b ∈ l, b ≠ 0) (hc : c ≠ 0) (hw : l = front ++ w)
    (hrounds : w.length < rounds) (hsmall : k + w.count c < 2 ^ 32) :
    countLoop c rounds (l.find c front.length) k s = (.ok (k + w.count c), s) := by
  have hmem := h.length_lt
  induction rounds generalizing front w k with
  | zero => exact absurd hrounds (Nat.not_lt_zero _)
  | succ rounds ih =>
    rcases delimited c w with hnone | ⟨x, v, rfl, hx⟩
    · rw [Bytes.find_eq_none hc fun b hb he => hnone (by rwa [hw, List.drop_left, he] at hb),
        List.count_eq_zero.mpr hnone]
      rfl
    · have hlen := congrArg List.length hw
      simp only [List.length_append, List.length_cons] at hlen hrounds
      have hdrop : l.drop front.length = x ++ c :: v := by rw [hw, List.drop_left]
      have hbytes : ∀ b ∈ x, b ≠ c ∧ b ≠ 0 := fun b hb => ⟨fun he => hx (he ▸ hb), hl b (by rw [hw]; simp [hb])⟩
      have hcount : (x ++ c :: v).count c = v.count c + 1 := by
        rw [List.count_append, List.count_eq_zero.mpr hx, List.count_cons_self, Nat.zero_add]
      have hbehind : front.length + x.length + 1 = (front ++ x ++ [c]).length := by
        simp only [List.length_append, List.length_singleton]
      rw [hcount] at hsmall ⊢
      rw [Bytes.find_eq hdrop hc hbytes, countLoop, get_bind, bind_ok (h.charLoop_eq c (by omega) (by omega)), hbehind,
        Nat.mod_eq_of_lt (by omega), @ih (front ++ x ++ [c]) v _ (by rw [hw]; simp) (by omega) (by omega)]
      rw [Nat.add_assoc, Nat.add_comm 1]

theorem count_eq (h : Shows s l) (hl : ∀ b ∈ l, b ≠ 0) (hc : c ≠ 0) (hfew : l.length < 2 ^ 32) :
    count c s = (.ok (l.count c), s) := by
  have hmem := h.length_lt
  have hle := List.count_le_length (a := c) (l := l)
  unfold count
  rw [get_bind, bind_ok (h.charLoop_eq c (Nat.zero_le _) (by omega))]
  have hloop := @countLoop_eq s l [] l c (s.memory.length + 1) 0 h hl hc rfl (by omega) (by omega)
  rw [Nat.zero_add] at hloop
  exact hloop

/-- The fields that come out right: a number below 2³¹ does not ask for an empty piece before the last one, and
one from 2³¹ on, which is negative as an `int32`, gets the first piece. -/
def FieldRight (l : Bytes) (c : UInt8) (n : Nat) : Prop :=
  if n < 2 ^ 31 then (l.splitOn c)[n]? = some [] → n + 1 = (l.splitOn c).length
  else c ∈ l → (l.splitOn c)[n]? = (l.splitOn c)[0]? ∧ (l.splitOn c)[0]? ≠ some []

section

variable (fresh : Nat → UInt8) (h : Stores s l) (hl : ∀ b ∈ l, b ≠ 0) (hc : c ≠ 0)

include h hl hc

theorem sectionChar_null (hn : n < 2 ^ 31) :
    (∀ x, (l.splitOn c)[n]? = some x → ∃ v, x ++ v = [c].intercalate ((l.splitOn c).drop n) ∧
      Yields (sectionChar fresh c n true) s (if x = [] then v else x)) ∧
    ((l.splitOn c)[n]? = none → Yields (sectionChar fresh c n true) s []) := by
  have hshows := h.toHolds.shows
  have hmem := hshows.length_lt
  obtain ⟨field, hrun, hpiece, hmiss⟩ := @fieldLoop_null s l [] l c (s.memory.length + 1) n (-1) (int32 n) hshows hl
    h.length_lt hc rfl (by omega) (Int.le_refl _) (by rw [int32_of_lt hn]; omega) (by rw [int32_of_lt hn]; omega)
  have hrun : fieldLoop c (int32 n) true (s.memory.length + 1) (-1) (-1) s = (.ok field, s) := hrun
  refine ⟨fun x hx => ?_, fun hnone => ?_⟩
  · obtain ⟨Q, v, hw, hjoin, hstart, hstop, hcount⟩ := hpiece x hx
    exact ⟨v, hjoin, sectionChar_found fresh hshows hl h.length_lt hw hrun hstart hstop (fun _ => hcount)⟩
  · obtain ⟨hstop, hcount⟩ := hmiss hnone
    exact sectionChar_missing fresh hshows h.length_lt hrun hstop (.inl hcount)

/-- A number that is negative as an `int32` stops the loop after its first round. -/
theorem sectionChar_negative (hn : 2 ^ 31 ≤ n) (hn' : n < 2 ^ 32) :
    (∀ x v, l = x ++ c :: v → c ∉ x → Yields (sectionChar fresh c n true) s (if x = [] then c :: v else x)) ∧
    (c ∉ l → Yields (sectionChar fresh c n true) s []) := by
  have hshows := h.toHolds.shows
  have hneg := int32_neg hn hn'
  have hround := @fieldLoop_round s l [] l c true _ (-1) (int32 n) s.memory.length hshows h.length_lt rfl
    (Int.le_refl _) (by decide) (skip_null c _ s)
  have hstart : int32 (([] : Bytes).length - 1) = -1 := int32_neg_one
  rw [if_neg (by omega), hstart] at hround
  refine ⟨fun x v hw hx => ?_, fun hnone => ?_⟩
  · have hw : l = [] ++ (x ++ c :: v) := hw
    have hnext := @find_delimited l [] c x v hl hc hw hx
    have hlen := h.length_lt
    rw [hw] at hlen
    simp only [List.length_append, List.length_cons, List.length_nil] at hlen
    have hne : position (l.find c ([] : Bytes).length) ≠ -1 := by
      rw [hnext]
      exact int32_ne_neg_one (by rw [List.nil_append]; omega)
    refine sectionChar_found fresh hshows hl h.length_lt hw hround (by dsimp only) ?_ fun hstop => absurd hstop hne
    rw [if_neg (List.cons_ne_nil c v)]
    exact hnext
  · rw [@find_undelimited l [] l c hc rfl hnone] at hround
    exact sectionChar_missing fresh hshows h.length_lt hround rfl (.inl (by show (-1 : Int) + 1 ≠ int32 n; omega))

theorem sectionChar_small_iff (hn : n < 2 ^ 31) :
    Yields (sectionChar fresh c n true) s ((l.splitOn c)[n]?.getD []) ↔
      ((l.splitOn c)[n]? = some [] → n + 1 = (l.splitOn c).length) := by
  obtain ⟨hpiece, hmiss⟩ := sectionChar_null fresh h hl hc hn
  cases hx : (l.splitOn c)[n]? with
  | none => exact ⟨fun _ he => absurd he (by simp), fun _ => hmiss hx⟩
  | some x =>
    obtain ⟨v, hjoin, hyields⟩ := hpiece x hx
    rw [Option.getD_some, Option.some_inj]
    by_cases hnil : x = []
    · subst hnil
      rw [if_pos rfl] at hyields
      rw [← intercalate_drop_eq_nil_iff hx, ← hjoin, List.nil_append]
      refine ⟨fun hempty _ => hyields.inj hempty, fun hv => ?_⟩
      rw [hv rfl] at hyields
      exact hyields
    · rw [if_neg hnil] at hyields
      exact ⟨fun _ he => absurd he hnil, fun _ => hyields⟩

theorem sectionChar_negative_iff (hn : 2 ^ 31 ≤ n) (hn' : n < 2 ^ 32) :
    Yields (sectionChar fresh c n true) s ((l.splitOn c)[n]?.getD []) ↔
      (c ∈ l → (l.splitOn c)[n]? = (l.splitOn c)[0]? ∧ (l.splitOn c)[0]? ≠ some []) := by
  obtain ⟨hfirst, hnone⟩ := sectionChar_negative fresh h hl hc hn hn'
  rcases delimited c l with hmem | ⟨x, v, hw, hx⟩
  · have hbeyond : (l.splitOn c)[n]? = none := by
      rw [List.splitOn_eq_singleton hmem]
      exact List.getElem?_eq_none (by rw [List.length_singleton]; omega)
    rw [hbeyond]
    exact ⟨fun _ hin => absurd hin hmem, fun _ => hnone hmem⟩
  · have hin : c ∈ l := by rw [hw]; simp
    have hyields := hfirst x v hw hx
    have hhead : (l.splitOn c)[0]? = some x := by
      rw [hw, List.splitOn_append_cons_self_of_not_mem hx]
      rfl
    rw [hhead]
    by_cases hnil : x = []
    · rw [if_pos hnil] at hyields
      refine ⟨fun hempty => ?_, fun hcond => absurd (congrArg some hnil) (hcond hin).2⟩
      have hsame := hyields.inj hempty
      cases hpiece : (l.splitOn c)[n]? with
      | none =>
        rw [hpiece] at hsame
        exact absurd hsame (List.cons_ne_nil c v)
      | some y =>
        rw [hpiece, Option.getD_some] at hsame
        have hy : c ∉ y := not_mem_splitOn c l (List.mem_of_getElem? hpiece)
        rw [← hsame] at hy
        exact absurd List.mem_cons_self hy
    · rw [if_neg hnil] at hyields
      refine ⟨fun hpiece _ => ?_, fun hcond => ?_⟩
      · have hsame := hyields.inj hpiece
        cases hy : (l.splitOn c)[n]? with
        | none =>
          rw [hy] at hsame
          exact absurd hsame hnil
        | some y =>
          rw [hy, Option.getD_some] at hsame
          rw [hsame]
          exact ⟨rfl, fun he => hnil (hsame.trans (Option.some.inj he))⟩
      · rw [(hcond hin).1]
        exact hyields

theorem sectionChar_iff (hn : n < 2 ^ 32) :
    Yields (sectionChar fresh c n true) s ((l.splitOn c)[n]?.getD []) ↔ FieldRight l c n := by
  unfold FieldRight
  obtain hsmall | hbig := Nat.lt_or_ge n (2 ^ 31)
  · rw [if_pos hsmall]
    exact sectionChar_small_iff fresh h hl hc hsmall
  · rw [if_neg (Nat.not_lt.mpr hbig)]
    exact sectionChar_negative_iff fresh h hl hc hbig hn

/-- There is a text that each field is. -/
theorem sectionChar_yields (hn : n < 2 ^ 32) : ∃ d, Yields (sectionChar fresh c n true) s d := by
  obtain hsmall | hbig := Nat.lt_or_ge n (2 ^ 31)
  · obtain ⟨hpiece, hmiss⟩ := sectionChar_null fresh h hl hc hsmall
    cases hx : (l.splitOn c)[n]? with
    | none => exact ⟨_, hmiss hx⟩
    | some x =>
      obtain ⟨v, -, hyields⟩ := hpiece x hx
      exact ⟨_, hyields⟩
  · obtain ⟨hfirst, hnone⟩ := sectionChar_negative fresh h hl hc hbig hn
    rcases delimited c l with hmem | ⟨x, v, hw, hx⟩
    · exact ⟨_, hnone hmem⟩
    · exact ⟨_, hfirst x v hw hx⟩

end

/-- The answers to a list of calls that each give a string. -/
theorem mapM_yields {f : Nat → Call Str} {d : Nat → Bytes} {ns : List Nat} (hf : ∀ n ∈ ns, Yields (f n) s (d n)) :
    ∃ ts, ns.mapM f s = (.ok ts, s) ∧ ts.map content = ns.map d := by
  induction ns with
  | nil => exact ⟨[], rfl, rfl⟩
  | cons n ns ih =>
    obtain ⟨t, ht, hd⟩ := hf n List.mem_cons_self
    obtain ⟨ts, hts, hmap⟩ := ih fun m hm => hf m (List.mem_cons_of_mem _ hm)
    refine ⟨t :: ts, ?_, by rw [List.map_cons, List.map_cons, hmap, hd.toHolds.represents.content_eq]⟩
    rw [List.mapM_cons, bind_ok ht, bind_ok hts]
    rfl

/-- The fields from the first to number `count(c)`, with the delimiter between them, are the text. -/
def Rejoins (fresh : Nat → UInt8) (c : UInt8) (s : Str) (l : Bytes) : Prop :=
  ∃ k ts, count c s = (.ok k, s) ∧ (List.range (k + 1)).mapM (fun n => sectionChar fresh c n true) s = (.ok ts, s) ∧
    [c].intercalate (ts.map content) = l

/-- A field is the piece with its number just if that is one of the fields that come out right, and the text can
be joined again just if all its fields do. -/
theorem sectionChar_pieces (fresh : Nat → UInt8) (h : Stores s l) (hl : ∀ b ∈ l, b ≠ 0) (hc : c ≠ 0) :
    (∀ n < 2 ^ 32, Yields (sectionChar fresh c n true) s ((l.splitOn c)[n]?.getD []) ↔ FieldRight l c n) ∧
    (Rejoins fresh c s l ↔ ∀ n ≤ l.count c, FieldRight l c n) := by
  refine ⟨fun n hn => sectionChar_iff fresh h hl hc hn, ?_⟩
  have hfew := h.length_lt
  have hle := List.count_le_length (a := c) (l := l)
  have hcount := count_eq h.toHolds.shows hl hc (by omega)
  have hall : ∀ n : Nat, ∃ d, n < 2 ^ 32 → Yields (sectionChar fresh c n true) s d := by
    intro n
    by_cases hn : n < 2 ^ 32
    · obtain ⟨d, hd⟩ := sectionChar_yields fresh h hl hc hn
      exact ⟨d, fun _ => hd⟩
    · exact ⟨[], fun hlt => absurd hlt hn⟩
  choose d hd using hall
  have hyields : ∀ n ∈ List.range (l.count c + 1), Yields (sectionChar fresh c n true) s (d n) := fun n hn =>
    hd n (by have := List.mem_range.mp hn; omega)
  obtain ⟨ts, hts, hmap⟩ := mapM_yields hyields
  have hrejoins : Rejoins fresh c s l ↔ [c].intercalate ((List.range (l.count c + 1)).map d) = l := by
    constructor
    · rintro ⟨k, ts', hk, hts', hjoin⟩
      rw [hcount] at hk
      cases hk
      rw [hts] at hts'
      cases hts'
      rwa [hmap] at hjoin
    · exact fun hjoin => ⟨_, ts, hcount, hts, by rwa [hmap]⟩
  have hpieces : (List.range (l.count c + 1)).map d = l.splitOn c ↔
      ∀ n ≤ l.count c, d n = (l.splitOn c)[n]?.getD [] := by
    constructor
    · intro heq n hn
      rw [← heq, List.getElem?_map, List.getElem?_range (by omega)]
      rfl
    · intro heq
      apply List.ext_getElem
      · rw [List.length_map, List.length_range, length_splitOn]
      · intro n hn hn'
        rw [List.length_map, List.length_range] at hn
        rw [List.getElem_map, List.getElem_range, heq n (by omega), List.getElem?_eq_getElem hn', Option.getD_some]
  rw [hrejoins, intercalate_eq_iff (by rw [List.length_map, List.length_range]), hpieces]
  refine forall₂_congr fun n hn => ?_
  rw [← sectionChar_iff fresh h hl hc (by omega : n < 2 ^ 32)]
  have hn := hd n (by omega)
  exact ⟨fun he => he ▸ hn, fun hy => hn.inj hy⟩

theorem sectionChar_pieces_hello :
    ∃ s, Stores s (bytes "Hello Hi Yo") ∧ Rejoins (fun _ => 7) 32 s (bytes "Hello Hi Yo") := by
  obtain ⟨s, -, h⟩ := create_copy (fun _ => 7) empty (by decide : (bytes "Hello Hi Yo").length + 16 < 2 ^ 32)
  refine ⟨s, h, (sectionChar_pieces (fun _ => 7) h (by decide) (by decide)).2.mpr ?_⟩
  unfold FieldRight
  decide

/-- An empty field takes along the rest of the text. -/
theorem not_yields_empty_field : ¬∀ (s : Str) (l : Bytes) (c : UInt8) (n : Nat) (fresh : Nat → UInt8), Stores s l →
    (∀ b ∈ l, b ≠ 0) → c ≠ 0 → n < 2 ^ 32 →
      Yields (sectionChar fresh c n true) s ((l.splitOn c)[n]?.getD []) := by
  intro hall
  obtain ⟨s, -, h⟩ := create_copy (fun _ => 7) empty (by decide : (bytes ",b").length + 16 < 2 ^ 32)
  have hright := (sectionChar_iff (fun _ => 7) h (by decide) (by decide) (by decide)).mp
    (hall s (bytes ",b") 44 0 (fun _ => 7) h (by decide) (by decide) (by decide))
  revert hright
  unfold FieldRight
  decide

end Str

end Srl
