import Srl.StrFind

namespace Srl

open Cells Session Occurrences

namespace Str

/-- `strlen(_str + pos)`. -/
def strlen (pos : Nat) : Call Nat := do
  let i ← charLoop 0 ((← get).memory.length + 1) pos
  pure (i.getD pos - pos)

/-- The `n` bytes from `_str + pos` on, as `memcpy` reads them. -/
def bytesAt (pos n : Nat) : Call Bytes := do
  let s ← get
  if pos + n ≤ s.memory.length then pure (window s.memory pos (pos + n)) else throw .fault

/-- A new string, filled by `x`. -/
def create (x : Call Unit) : Call Str :=
  match x empty with
  | (.ok _, t) => pure t
  | (.error e, _) => throw e

/-- The length that `String(_str + pos, len)` copies: 0 asks for the whole C string. -/
def partLength (pos len : Nat) : Call Nat :=
  if len = 0 then do
    let n ← strlen pos
    pure (n % 2 ^ 32)
  else pure len

def ofPart (fresh : Nat → UInt8) (pos len : Nat) : Call Str := do
  let n ← partLength pos len
  create (copy fresh (← bytesAt pos n))

/-- The `String` that a returned `String::null` makes. -/
def null (fresh : Nat → UInt8) : Call Str := create (copy fresh [])

def mid (fresh : Nat → UInt8) (pos len : Nat) : Call Str := do
  if (pos + len) % 2 ^ 32 ≤ (← get).string_length then ofPart fresh pos len else null fresh

def substr (fresh : Nat → UInt8) (pos len : Nat) : Call Str := mid fresh pos len

/-- `substr(pos)`. -/
def substrFrom (fresh : Nat → UInt8) (pos : Nat) : Call Str := do
  mid fresh pos (((← get).string_length + 2 ^ 32 - pos) % 2 ^ 32)

/-- The call answers a string that stores `d`, and leaves its own string as it is. -/
def Yields (x : Call Str) (s : Str) (d : Bytes) : Prop := ∃ t, x s = (.ok t, s) ∧ Stores t d

variable {s : Str} {l d d' : Bytes} {pos len n : Nat} {x : Call Str} (fresh : Nat → UInt8)

theorem Yields.inj (h : Yields x s d) (h' : Yields x s d') : d = d' := by
  obtain ⟨t, ht, hd⟩ := h
  obtain ⟨t', ht', hd'⟩ := h'
  rw [ht] at ht'
  cases ht'
  exact hd.inj hd'.toHolds

theorem not_yields_of_fault (h : (x s).1 = .error .fault) : ¬Yields x s d := by
  rintro ⟨t, ht, -⟩
  rw [ht] at h
  cases h

theorem create_copy (s : Str) (hd : d.length + 16 < 2 ^ 32) : Yields (create (copy fresh d)) s d := by
  have h := empty_holds
  obtain ⟨t, ht, hholds⟩ := @copy_spec empty d fresh h.array_size_eq h.min_lt hd
  refine ⟨t, ?_, (keeps_copy fresh d empty () t ht empty_sane).stores hholds⟩
  unfold create
  rw [ht]
  rfl

/-- A string that begins with 2³¹ times the same character. -/
theorem exists_long (c : UInt8) (d : Bytes) (hd : d.length < 2 ^ 30) :
    ∃ u s, u.length = 2 ^ 31 ∧ (∀ b ∈ u, b = c) ∧ Stores s (u ++ d) := by
  obtain ⟨k, hk⟩ : ∃ k : Nat, k = 2 ^ 31 := ⟨_, rfl⟩
  have hlen : (List.replicate k c).length = k := List.length_replicate
  obtain ⟨s, -, h⟩ := create_copy (fun _ => 7) empty (d := List.replicate k c ++ d)
    (by rw [List.length_append, hlen]; omega)
  exact ⟨_, s, hlen.trans hk, fun b hb => List.eq_of_mem_replicate hb, h⟩

theorem null_yields (s : Str) : Yields (null fresh) s [] := create_copy fresh s (by decide)

theorem Stores.memory_lt (h : Stores s l) : s.memory.length < 2 ^ 32 := by
  have hle := h.array_size_le
  have hsize := h.array_size_eq
  cases hs : s.str with
  | none =>
    rw [memory, hs]
    show 4 < 2 ^ 32
    omega
  | some b =>
    rw [buffer, hs] at hsize
    rw [memory, hs]
    show b.length < 2 ^ 32
    have hsize : s.array_size = b.length := hsize
    omega

namespace Shows

theorem strlen_eq (h : Shows s l) (hpos : pos ≤ l.length) :
    strlen pos s = (.ok (Bytes.cstr (l.drop pos)).length, s) := by
  have hlt := h.length_lt
  have hfind : l.find 0 pos = some (pos + (Bytes.cstr (l.drop pos)).length) := if_pos rfl
  unfold strlen
  rw [get_bind, bind_ok (h.charLoop_eq 0 hpos (by omega)), hfind, Option.getD_some, Nat.add_sub_cancel_left]
  rfl

theorem bytesAt_eq (h : Shows s l) (hn : pos + n ≤ l.length) :
    bytesAt pos n s = (.ok (window l pos (pos + n)), s) := by
  have hlt := h.length_lt
  obtain ⟨r, hr⟩ := h.shown
  have hwindow : window s.memory pos (pos + n) = window l pos (pos + n) := by
    rw [← hr, List.append_assoc, window, window, List.take_append_of_le_length hn]
  unfold bytesAt
  rw [get_bind, if_pos (by omega), hwindow]
  rfl

theorem partLength_zero (h : Shows s l) (hl : l.length < 2 ^ 32) (hpos : pos ≤ l.length) :
    partLength pos 0 s = (.ok (Bytes.cstr (l.drop pos)).length, s) := by
  have hshort : (Bytes.cstr (l.drop pos)).length ≤ (l.drop pos).length := (List.takeWhile_prefix _).length_le
  rw [List.length_drop] at hshort
  unfold partLength
  rw [if_pos rfl, bind_ok (h.strlen_eq hpos), Nat.mod_eq_of_lt (by omega)]
  rfl

theorem ofPart_yields (h : Shows s l) (hl : l.length + 16 < 2 ^ 32) (hle : pos + len ≤ l.length) :
    Yields (ofPart fresh pos len) s
      (if len = 0 then Bytes.cstr (l.drop pos) else window l pos (pos + len)) := by
  unfold ofPart
  split
  next hlen =>
    subst hlen
    rw [Nat.add_zero] at hle
    have hpre : Bytes.cstr (l.drop pos) <+: l.drop pos := List.takeWhile_prefix _
    have hshort := hpre.length_le
    rw [List.length_drop] at hshort
    have hwindow : window l pos (pos + (Bytes.cstr (l.drop pos)).length) = Bytes.cstr (l.drop pos) := by
      rw [window, List.drop_take, Nat.add_sub_cancel_left]
      exact (List.prefix_iff_eq_take.mp hpre).symm
    rw [Yields, bind_ok (h.partLength_zero (by omega) hle), bind_ok (h.bytesAt_eq (by omega)), hwindow]
    exact create_copy fresh s (by omega)
  next hlen =>
    have hlength : partLength pos len s = (.ok len, s) := by
      rw [partLength, if_neg hlen]
      rfl
    rw [Yields, bind_ok hlength, bind_ok (h.bytesAt_eq hle)]
    exact create_copy fresh s (by rw [length_window]; omega)

theorem mid_yields (h : Shows s l) (hl : l.length + 16 < 2 ^ 32) (hle : pos + len ≤ l.length) :
    Yields (mid fresh pos len) s
      (if len = 0 then Bytes.cstr (l.drop pos) else window l pos (pos + len)) := by
  have hyields := h.ofPart_yields fresh hl hle
  unfold mid
  rw [Yields, get_bind, if_pos (by rw [h.length_eq]; omega)]
  exact hyields

theorem mid_null (h : Shows s l) (hlt : l.length < (pos + len) % 2 ^ 32) : Yields (mid fresh pos len) s [] := by
  unfold mid
  rw [Yields, get_bind, if_neg (by rw [h.length_eq]; omega)]
  exact null_yields fresh s

end Shows

/-- A sum that wraps lets `memcpy` read where no string has memory. -/
theorem Stores.mid_wrap (h : Stores s l) (hpos : pos < 2 ^ 32) (hlen : len < 2 ^ 32) (hwrap : 2 ^ 32 ≤ pos + len)
    (hle : pos + len - 2 ^ 32 ≤ l.length) : (mid fresh pos len s).1 = .error .fault := by
  have hmem := h.memory_lt
  have hlength : partLength pos len s = (.ok len, s) := by
    rw [partLength, if_neg (by omega)]
    rfl
  have hfault : bytesAt pos len s = (.error .fault, s) := by
    unfold bytesAt
    rw [get_bind, if_neg (by omega)]
    rfl
  unfold mid ofPart
  rw [get_bind, if_pos (by rw [h.length_eq]; omega), bind_ok hlength, bind_error hfault]

/-- The positions and lengths for which a cut of a text is what it should be: a length of 0 does not ask for
the rest of the text, and no sum wraps down to the length of the text. -/
def Cuttable (l : Bytes) (pos len : Nat) : Prop :=
  (len = 0 → pos < l.length → l[pos]? = some 0) ∧ (2 ^ 32 ≤ pos + len → l.length < pos + len - 2 ^ 32)

theorem Stores.mid_iff (h : Stores s l) (hpos : pos < 2 ^ 32) (hlen : len < 2 ^ 32) :
    Yields (mid fresh pos len) s (if pos + len ≤ l.length then window l pos (pos + len) else []) ↔
      Cuttable l pos len := by
  have hl := h.length_lt
  unfold Cuttable
  obtain hwrap | hwrap := Nat.lt_or_ge (pos + len) (2 ^ 32)
  · have hsecond : 2 ^ 32 ≤ pos + len → l.length < pos + len - 2 ^ 32 := fun hge => absurd hwrap (Nat.not_lt.mpr hge)
    rw [and_iff_left hsecond]
    split
    next hle =>
      have hyields := h.toHolds.shows.mid_yields fresh hl hle
      by_cases hzero : len = 0
      · subst hzero
        rw [if_pos rfl] at hyields
        rw [Nat.add_zero, window_self]
        refine ⟨fun hnil _ hlt => ?_, fun hterm => ?_⟩
        · have hcstr := hyields.inj hnil
          rw [List.drop_eq_getElem_cons hlt, Bytes.cstr_cons] at hcstr
          rw [List.getElem?_eq_getElem hlt]
          split at hcstr
          next hchar => rw [hchar]
          next => cases hcstr
        · obtain hlt | hge := Nat.lt_or_ge pos l.length
          · have hchar := hterm rfl hlt
            rw [List.getElem?_eq_getElem hlt] at hchar
            rw [List.drop_eq_getElem_cons hlt, Option.some.inj hchar] at hyields
            exact hyields
          · rw [List.drop_eq_nil_of_le hge] at hyields
            exact hyields
      · rw [if_neg hzero] at hyields
        exact ⟨fun _ hlen => absurd hlen hzero, fun _ => hyields⟩
    next hgt =>
      have hyields : Yields (mid fresh pos len) s [] := h.toHolds.shows.mid_null fresh (by omega)
      exact ⟨fun _ _ _ => by omega, fun _ => hyields⟩
  · have hfirst : len = 0 → pos < l.length → l[pos]? = some 0 := fun hzero => by omega
    rw [and_iff_right hfirst, if_neg (by omega)]
    obtain hle | hlt := Nat.lt_or_ge l.length (pos + len - 2 ^ 32)
    · exact ⟨fun _ _ => hle, fun _ => h.toHolds.shows.mid_null fresh (by omega)⟩
    · refine ⟨fun hyields => ?_, fun hcond => absurd (hcond hwrap) (Nat.not_lt.mpr hlt)⟩
      exact absurd hyields (not_yields_of_fault (h.mid_wrap fresh hpos hlen hwrap hlt))

theorem Stores.substrFrom_iff (h : Stores s l) (hpos : pos < 2 ^ 32) :
    Yields (substrFrom fresh pos) s (l.drop pos) ↔ pos ≤ l.length := by
  have hl := h.length_lt
  unfold substrFrom
  rw [Yields, get_bind, h.length_eq]
  show Yields (mid fresh pos ((l.length + 2 ^ 32 - pos) % 2 ^ 32)) s (l.drop pos) ↔ _
  by_cases hle : pos ≤ l.length
  · have hsub : (l.length + 2 ^ 32 - pos) % 2 ^ 32 = l.length - pos := by omega
    have hyields := (h.mid_iff fresh hpos (by omega : l.length - pos < 2 ^ 32)).mpr ⟨fun hzero hlt => by
      omega, by omega⟩
    rw [if_pos (by omega), Nat.add_sub_cancel' hle, window, List.take_length] at hyields
    rw [hsub]
    exact ⟨fun _ => hle, fun _ => hyields⟩
  · have hsub : (l.length + 2 ^ 32 - pos) % 2 ^ 32 = l.length + 2 ^ 32 - pos := Nat.mod_eq_of_lt (by omega)
    rw [hsub]
    refine ⟨fun hyields => ?_, fun h => absurd h hle⟩
    exact absurd hyields (not_yields_of_fault (h.mid_wrap fresh hpos (by omega) (by omega) (by omega)))

/-- The substring law: it holds of `mid` and `substr` just for these arguments, and of `substr(pos)` up to the
end of the text. -/
theorem mid_substr_iff (h : Stores s l) (hpos : pos < 2 ^ 32) (hlen : len < 2 ^ 32) :
    (Yields (mid fresh pos len) s (if pos + len ≤ l.length then window l pos (pos + len) else []) ↔
      Cuttable l pos len) ∧
    (Yields (substr fresh pos len) s (if pos + len ≤ l.length then window l pos (pos + len) else []) ↔
      Cuttable l pos len) ∧
    (Yields (substrFrom fresh pos) s (l.drop pos) ↔ pos ≤ l.length) :=
  ⟨h.mid_iff fresh hpos hlen, h.mid_iff fresh hpos hlen, h.substrFrom_iff fresh hpos⟩

theorem mid_substr_iff_peace : ∃ s, Stores s (bytes "world peace") ∧
    Yields (mid (fun _ => 7) 6 5) s (bytes "peace") := by
  obtain ⟨s, -, h⟩ := create_copy (fun _ => 7) empty (d := bytes "world peace") (by decide)
  exact ⟨s, h, (mid_substr_iff (fun _ => 7) h (by decide : 6 < 2 ^ 32) (by decide : 5 < 2 ^ 32)).1.mpr
    ⟨by decide, by decide⟩⟩

/-- A cut of no characters in front of a text is the whole text. -/
theorem not_yields_nothing : ¬∀ (s : Str) (l : Bytes) (pos len : Nat) (fresh : Nat → UInt8), Stores s l →
    pos < 2 ^ 32 → len < 2 ^ 32 →
      Yields (mid fresh pos len) s (if pos + len ≤ l.length then window l pos (pos + len) else []) := by
  intro hall
  obtain ⟨s, -, h⟩ := create_copy (fun _ => 7) empty (d := bytes "a") (by decide)
  have hcut := (h.mid_iff (fun _ => 7) (by decide) (by decide)).mp
    (hall s (bytes "a") 0 0 (fun _ => 7) h (by decide) (by decide))
  exact absurd (hcut.1 rfl (by decide)) (by decide)

end Str

end Srl
