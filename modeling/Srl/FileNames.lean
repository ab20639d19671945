import Srl.StrRfind

namespace Srl.FS

open Session Str

/-- The copy that `return path` makes. -/
def whole (fresh : Nat → UInt8) : Call Str := do
  create (copy fresh (← bytesAt 0 (← get).string_length))

/-- What is done with a path that has a backslash, or else a slash. -/
def bySeparator (fresh : Nat → UInt8) (cut : UInt8 → Call Str) : Call Str := do
  if 0 < (← count 92) then cut 92
  else if 0 < (← count 47) then cut 47
  else whole fresh

def GetFileName (fresh : Nat → UInt8) : Call Str :=
  bySeparator fresh fun sep => do substrFrom fresh (uint32 ((← rfind sep 0) + 1))

def GetDirName (fresh : Nat → UInt8) : Call Str :=
  bySeparator fresh fun sep => do substr fresh 0 (uint32 (← rfind sep 0))

/-- The separator of a path: the backslash if there is one, else the slash. -/
def separator (l : Bytes) : Option UInt8 := if 92 ∈ l then some 92 else if 47 ∈ l then some 47 else none

variable {s : Str} {l : Bytes} {sep : UInt8} (fresh : Nat → UInt8)

theorem separator_mem (h : separator l = some sep) : sep ∈ l ∧ sep ≠ 0 := by
  unfold separator at h
  split at h
  next hmem =>
    obtain rfl := Option.some.inj h
    exact ⟨hmem, by decide⟩
  next =>
    split at h
    next hmem =>
      obtain rfl := Option.some.inj h
      exact ⟨hmem, by decide⟩
    next => cases h

theorem bySeparator_eq (h : Shows s l) (hl : ∀ b ∈ l, b ≠ 0) (hlen : l.length < 2 ^ 32)
    (hsep : separator l = some sep) (cut : UInt8 → Call Str) : bySeparator fresh cut s = cut sep s := by
  have hcount : ∀ c : UInt8, c ≠ 0 → count c s = (.ok (l.count c), s) := fun c hc => count_eq h hl hc hlen
  unfold separator at hsep
  unfold bySeparator
  rw [bind_ok (hcount 92 (by decide))]
  split at hsep
  next hmem =>
    obtain rfl := Option.some.inj hsep
    rw [if_pos (List.count_pos_iff.mpr hmem)]
  next hno =>
    rw [if_neg fun hpos => hno (List.count_pos_iff.mp hpos), bind_ok (hcount 47 (by decide))]
    split at hsep
    next hmem =>
      obtain rfl := Option.some.inj hsep
      rw [if_pos (List.count_pos_iff.mpr hmem)]
    next => cases hsep

/-- The name is what stands behind the last separator. -/
theorem getFileName_yields {a b : Bytes} (h : Stores s l) (hl : ∀ b ∈ l, b ≠ 0) (hsep : separator l = some sep)
    (hw : l = a ++ sep :: b) (hb : sep ∉ b) (hlen : l.length < 2 ^ 31) : Yields (GetFileName fresh) s b := by
  have hshows := h.toHolds.shows
  have hpos : a.length + 1 ≤ l.length := by
    rw [hw, List.length_append, List.length_cons]
    omega
  have hdrop : l.drop (a.length + 1) = b := by
    rw [hw, ← List.drop_drop, List.drop_left]
    rfl
  have hrfind := hshows.rfind_last (separator_mem hsep).2 hw hb hlen
  have hcast : uint32 ((a.length : Int) + 1) = a.length + 1 := uint32_of_lt (n := a.length + 1) (by omega)
  rw [GetFileName, Yields, bySeparator_eq fresh hshows hl (by omega) hsep, bind_ok hrfind, hcast]
  have hyields := (h.substrFrom_iff fresh (by omega)).mpr hpos
  rw [hdrop] at hyields
  exact hyields

/-- The directory is what stands in front of it; where nothing does, it is the whole path. -/
theorem getDirName_yields {a b : Bytes} (h : Stores s l) (hl : ∀ b ∈ l, b ≠ 0) (hsep : separator l = some sep)
    (hw : l = a ++ sep :: b) (hb : sep ∉ b) (hlen : l.length < 2 ^ 31) :
    Yields (GetDirName fresh) s (if a = [] then l else a) := by
  have hshows := h.toHolds.shows
  have hle : 0 + a.length ≤ l.length := by
    rw [hw, List.length_append]
    omega
  have hrfind := hshows.rfind_last (separator_mem hsep).2 hw hb hlen
  rw [GetDirName, Yields, bySeparator_eq fresh hshows hl (by omega) hsep, bind_ok hrfind,
    uint32_of_lt (by omega)]
  have hyields := hshows.mid_yields fresh h.length_lt hle
  rw [List.drop_zero, Bytes.cstr_of_ne hl, Nat.zero_add, hw, Cells.window, List.take_left, List.drop_zero,
    ← hw] at hyields
  simp only [List.length_eq_zero_iff] at hyields
  exact hyields

/-- Where a character of the text stands for the last time. -/
theorem last_split (hmem : sep ∈ l) : ∃ a b, l = a ++ sep :: b ∧ sep ∉ b := by
  obtain ⟨b, a, hsplit, hb⟩ := List.eq_append_cons_of_mem (List.mem_reverse.mpr hmem)
  refine ⟨a.reverse, b.reverse, ?_, fun h => hb (List.mem_reverse.mp h)⟩
  rw [← List.reverse_reverse l, hsplit]
  simp

/-- The index of a path of 2³¹ characters is negative, so that its name is the whole path. -/
theorem getFileName_long (h : Stores s l) (hl : ∀ b ∈ l, b ≠ 0) (hsep : separator l = some sep)
    (hlen : 2 ^ 31 ≤ l.length) : Yields (GetFileName fresh) s l := by
  have hshows := h.toHolds.shows
  have hlt := h.length_lt
  rw [GetFileName, Yields, bySeparator_eq fresh hshows hl (by omega) hsep,
    bind_ok (hshows.rfind_long hlen (by omega))]
  exact (h.substrFrom_iff fresh (by decide)).mpr (Nat.zero_le _)

/-- The directory, the separator and the name put together again. -/
def Splits (fresh : Nat → UInt8) (s : Str) (l : Bytes) (sep : UInt8) : Prop :=
  ∃ dir file, Yields (GetDirName fresh) s dir ∧ Yields (GetFileName fresh) s file ∧
    dir ++ sep :: file = l ∧ sep ∉ file

/-- A path comes apart at its last separator exactly if that is not its first character. -/
theorem splits_iff (h : Stores s l) (hl : ∀ b ∈ l, b ≠ 0) (hsep : separator l = some sep) :
    Splits fresh s l sep ↔ l.length < 2 ^ 31 ∧ sep ∈ l.tail := by
  obtain ⟨a, b, hw, hb⟩ := last_split (separator_mem hsep).1
  constructor
  · rintro ⟨dir, file, hdir, hfile, hjoin, hno⟩
    have hlen : l.length < 2 ^ 31 := by
      by_contra hlong
      have hwhole := getFileName_long fresh h hl hsep (Nat.not_lt.mp hlong)
      rw [hfile.inj hwhole] at hno
      exact hno (separator_mem hsep).1
    refine ⟨hlen, ?_⟩
    have hfront := hdir.inj (getDirName_yields fresh h hl hsep hw hb hlen)
    by_cases hnil : a = []
    · rw [if_pos hnil] at hfront
      have hlength := congrArg List.length hjoin
      rw [hfront, List.length_append, List.length_cons] at hlength
      omega
    · obtain ⟨c, a, rfl⟩ := List.exists_cons_of_ne_nil hnil
      rw [hw]
      exact List.mem_append_right a List.mem_cons_self
  · rintro ⟨hlen, htail⟩
    have hne : a ≠ [] := by
      rintro rfl
      rw [hw] at htail
      exact hb htail
    have hdir := getDirName_yields fresh h hl hsep hw hb hlen
    rw [if_neg hne] at hdir
    exact ⟨a, b, hdir, getFileName_yields fresh h hl hsep hw hb hlen, hw.symm, hb⟩

theorem splits_etc : ∃ s, Stores s (bytes "/etc/hosts") ∧ Splits (fun _ => 7) s (bytes "/etc/hosts") 47 := by
  obtain ⟨s, -, h⟩ := create_copy (fun _ => 7) empty (d := bytes "/etc/hosts") (by decide)
  exact ⟨s, h, (splits_iff (fun _ => 7) h (by decide) rfl).mpr (by decide)⟩

/-- The directory of a file in the root is taken to be the whole path. -/
theorem not_splits : ¬∀ (fresh : Nat → UInt8) (s : Str) (l : Bytes) (sep : UInt8), Stores s l →
    (∀ b ∈ l, b ≠ 0) → separator l = some sep → Splits fresh s l sep := by
  intro hall
  obtain ⟨s, -, h⟩ := create_copy (fun _ => 7) empty (d := bytes "/x") (by decide)
  obtain ⟨dir, file, hdir, -, hjoin, -⟩ := hall (fun _ => 7) s (bytes "/x") 47 h (by decide) rfl
  have hwhole := getDirName_yields (fun _ => 7) h (by decide) rfl (a := []) (b := bytes "x") rfl (by decide)
    (by decide)
  rw [if_pos rfl] at hwhole
  rw [hdir.inj hwhole] at hjoin
  exact absurd hjoin (by simp)

end Srl.FS
