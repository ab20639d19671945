import Srl.StrCut

namespace Srl

open Cells Session

namespace Str

/-- A `va_list`, which is indeterminate once a call has gone through it. -/
inductive VaList
  | started
  | consumed
deriving DecidableEq

/-- `vsnprintf(_str, n + 1, fmt, args)` for arguments that print `printed`: it answers the length of the whole
text, and leaves the list consumed. The behaviour for a consumed list is undefined. -/
def vsnprintfList (args : VaList) (n : Nat) (printed : Bytes) : Call (Int × VaList) := do
  if args = .started then
    vsnprintf n printed
    pure (printed.length, .consumed)
  else throw .fault

/-- The loop of `vformat` from the label `x` on. -/
def formatLoop (mem : Nat → Nat → UInt8) (printed : Bytes) : Nat → Nat → VaList → Call Int
  | 0, _, _ => throw .unfinished
  | rounds + 1, n, args => do
    resize (mem rounds) n
    let r ← vsnprintfList args n printed
    if r.1 < 0 then formatLoop mem printed rounds (n * 2 % 2 ^ 32) r.2
    else if n < r.1 then formatLoop mem printed rounds r.1.toNat r.2
    else pure r.1

/-- The length that `vformat` comes to. -/
def formatted (mem : Nat → Nat → UInt8) (rounds : Nat) (fmt printed : Bytes) : Call Int :=
  if fmt = [] then pure 0
  else formatLoop mem printed rounds ((fmt.length % 2 ^ 32 + 128) % 2 ^ 32) .started

/-- `vformat`, with what becomes of its `va_list`. -/
def vformatList (mem : Nat → Nat → UInt8) (rounds : Nat) (fmt printed : Bytes) : Call Unit := do
  let len ← formatted mem rounds fmt printed
  resize (mem rounds) len.toNat

/-- The first buffer is long enough: the text has no more characters than the format and 128. The length of the
format is one modulo 2³². -/
def Roomy (s : Str) (fmt printed : Bytes) : Prop :=
  printed.length ≤ (fmt.length + 128) % 2 ^ 32 ∧ (fmt.length + 128) % 2 ^ 32 + 16 < 2 ^ 32 ∧
    (0 < (fmt.length + 128) % 2 ^ 32 ∨ 0 < s.min_size)

variable {s s' : Str} {l fmt printed : Bytes} {mem : Nat → Nat → UInt8} {rounds n : Nat} {args : VaList} {len : Int}

/-- A consumed list is never printed. -/
theorem formatLoop_consumed (h : formatLoop mem printed rounds n .consumed s = (.ok len, s')) : False := by
  cases rounds with
  | zero => cases h
  | succ rounds =>
    obtain ⟨_, s₁, -, h⟩ := bind_inv h
    obtain ⟨r, s₂, hprint, -⟩ := bind_inv h
    cases hprint

/-- The loop returns from its first round or not at all. -/
theorem formatLoop_inv (hs : Sane s) (hfew : printed.length < 2 ^ 31)
    (h : formatLoop mem printed rounds n .started s = (.ok len, s')) :
    printed.length ≤ n ∧ n + 16 < 2 ^ 32 ∧ (0 < n ∨ 0 < s.min_size) := by
  cases rounds with
  | zero => cases h
  | succ rounds =>
    obtain ⟨_, s₁, hresize, h⟩ := bind_inv h
    obtain ⟨r, s₂, hprint, h⟩ := bind_inv h
    obtain ⟨hsane, hlength, hmin⟩ := resize_sane hs.toAllocated hresize
    obtain ⟨_, s₃, hcopy, hr⟩ := bind_inv hprint
    cases hr
    have hsome : s₁.str.isSome := by
      have hle := memcpy_inv (by simp) hcopy
      rw [List.length_append, List.length_singleton] at hle
      exact @isSome_of_buffer _ 0 (by omega)
    have hroom := hsane.room hsome
    have hsize := hsane.array_size_le
    have hpos : 0 < n ∨ 0 < s.min_size := by
      by_contra hneg
      have hnone := hsane.none_iff.mpr ⟨by omega, by omega⟩
      rw [hnone] at hsome
      cases hsome
    refine ⟨?_, by omega, hpos⟩
    by_contra hmore
    rw [if_neg (by omega), if_pos (by omega)] at h
    exact formatLoop_consumed h

theorem formatLoop_roomy (hs : Allocated s) (hm : s.min_size + 16 < 2 ^ 32) (hle : printed.length ≤ n)
    (hfew : n + 16 < 2 ^ 32) (hpos : 0 < n ∨ 0 < s.min_size) :
    ∃ s', formatLoop mem printed (rounds + 1) n .started s = (.ok printed.length, s') ∧
      s'.array_size = s'.buffer.length ∧ s'.min_size + 16 < 2 ^ 32 ∧ printed <+: s'.buffer := by
  obtain ⟨x, r, hresize, hx, hlen, -⟩ := resize_any (mem rounds) hs.array_size_eq hm hfew hpos
  let b := overwrite (x ++ 0 :: r) 0 (printed ++ [0])
  have hfit : 0 + (printed ++ [0]).length ≤ (x ++ 0 :: r).length := by
    simp only [List.length_append, List.length_cons, List.length_nil]
    omega
  have hprint : vsnprintfList .started n printed ((s.resized (mem rounds) n).withBuffer (x ++ 0 :: r)) =
      (.ok (printed.length, .consumed), (s.resized (mem rounds) n).withBuffer b) := by
    rw [vsnprintfList, if_pos rfl, vsnprintf, List.take_of_length_le hle, bind_ok (memcpy_eq hfit)]
    rfl
  refine ⟨(s.resized (mem rounds) n).withBuffer b, ?_, ?_, ?_, ?_⟩
  · rw [formatLoop, bind_ok hresize, bind_ok hprint, if_neg (by omega), if_neg (by omega)]
    rfl
  · show (s.resized (mem rounds) n).array_size = b.length
    rw [length_overwrite, hlen, resized, if_pos hpos]
  · show (s.resized (mem rounds) n).min_size + 16 < 2 ^ 32
    rwa [resized_min_size]
  · have hfront := window_overwrite_self hfit
    rw [Nat.zero_add, window_zero] at hfront
    have htake := List.take_prefix (printed ++ [0]).length b
    rw [hfront] at htake
    exact (List.prefix_append printed [0]).trans htake

theorem keeps_formatLoop (mem : Nat → Nat → UInt8) (printed : Bytes) (rounds n : Nat) (args : VaList) :
    Within Keeps (formatLoop mem printed rounds n args) := by
  induction rounds generalizing n args with
  | zero => exact within_throw _
  | succ rounds ih =>
    have hprint : Within Keeps (vsnprintfList args n printed) :=
      within_ite (fun _ => Keeps.bind (keeps_memcpy _ _) fun _ => keeps_pure _) fun _ => within_throw _
    exact Keeps.bind (keeps_resize _ _) fun _ => Keeps.bind hprint fun _ =>
      within_ite (fun _ => ih _ _) fun _ => within_ite (fun _ => ih _ _) fun _ => keeps_pure _

theorem keeps_vformatList (mem : Nat → Nat → UInt8) (rounds : Nat) (fmt printed : Bytes) :
    Within Keeps (vformatList mem rounds fmt printed) :=
  Keeps.bind (within_ite (fun _ => keeps_pure _) fun _ => keeps_formatLoop _ _ _ _ _) fun _ => keeps_resize _ _

/-- `vformat` leaves the text that the arguments print just if its first buffer is long enough for it: otherwise
the consumed list is passed on. -/
theorem vformatList_iff (mem : Nat → Nat → UInt8) (rounds : Nat) (h : Stores s l) (hfew : printed.length < 2 ^ 31)
    (hempty : fmt = [] → printed = []) :
    Becomes (vformatList mem (rounds + 1) fmt printed) s printed ↔ Roomy s fmt printed := by
  have hmod : (fmt.length % 2 ^ 32 + 128) % 2 ^ 32 = (fmt.length + 128) % 2 ^ 32 := Nat.mod_add_mod _ _ _
  by_cases hfmt : fmt = []
  · rw [hempty hfmt, hfmt]
    have hcut := resize_cut (mem (rounds + 1)) h.array_size_eq h.min_lt (l := []) (by decide) List.nil_prefix
    exact ⟨fun _ => ⟨by decide, by decide, .inl (by decide)⟩, fun _ => h.becomes (keeps_vformatList _ _ _ _) hcut⟩
  · constructor
    · rintro ⟨s', hrun, -⟩
      obtain ⟨len, s₁, hloop, -⟩ := bind_inv hrun
      rw [formatted, if_neg hfmt, hmod] at hloop
      exact formatLoop_inv h.sane hfew hloop
    · rintro ⟨hle, hroom, hpos⟩
      obtain ⟨s₁, hloop, hsize, hmin, hfront⟩ :=
        @formatLoop_roomy _ _ mem rounds _ h.sane.toAllocated h.min_lt hle hroom hpos
      obtain ⟨s₂, hresize, hholds⟩ := resize_cut (mem (rounds + 1)) hsize hmin (by omega) hfront
      have hlength : formatted mem (rounds + 1) fmt printed s = (.ok printed.length, s₁) := by
        rw [formatted, if_neg hfmt, hmod]
        exact hloop
      exact h.becomes (keeps_vformatList _ _ _ _) ⟨s₂, (bind_ok hlength).trans hresize, hholds⟩

theorem vformatList_iff_number :
    Becomes (vformatList (fun _ _ => 7) 1 (bytes "%d files") (bytes "12 files")) empty (bytes "12 files") :=
  (vformatList_iff (fun _ _ => 7) 0 empty_stores (by decide) (by decide)).mpr ⟨by decide, by decide, .inl (by decide)⟩

/-- A text of 131 characters for the format `%s` is printed from a list that was gone through. -/
theorem not_vformatList : ¬∀ (s : Str) (l fmt printed : Bytes), Stores s l → printed.length < 2 ^ 31 →
    (fmt = [] → printed = []) → ∃ rounds, Becomes (vformatList (fun _ _ => 7) rounds fmt printed) s printed := by
  intro hall
  have hfew : (List.replicate 131 (65 : UInt8)).length < 2 ^ 31 := by
    rw [List.length_replicate]
    decide
  have hempty : bytes "%s" = [] → List.replicate 131 (65 : UInt8) = [] := fun h => absurd h (by decide)
  obtain ⟨rounds, hbecomes⟩ := hall empty [] (bytes "%s") (List.replicate 131 65) empty_stores hfew hempty
  cases rounds with
  | zero =>
    obtain ⟨s', hrun, -⟩ := hbecomes
    cases hrun
  | succ rounds =>
    have hle := ((vformatList_iff _ rounds empty_stores hfew hempty).mp hbecomes).1
    rw [List.length_replicate] at hle
    exact absurd hle (by decide)

end Str

end Srl
