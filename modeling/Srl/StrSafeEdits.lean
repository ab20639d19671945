import Srl.StrSafe
import Srl.BytesFind

namespace Srl

open Cells Session

namespace Str

/-- A size that may be asked of a string: where `_str` is `EMPTY` it must not round up to 0. -/
def Asks (s : Str) (n : Nat) : Prop := s.str = none → n + 16 < 2 ^ 32

/-- No text behind a text makes an empty one. -/
def AppendSpares (s : Str) (d : Bytes) : Prop :=
  Asks s (d.length % 2 ^ 32) ∧ ((d.length + s.string_length) % 2 ^ 32 = 0 → 0 < s.min_size)

def InsertSpares (s : Str) (d : Bytes) : Prop :=
  Asks s (d.length % 2 ^ 32) ∧ (s.string_length + d.length % 2 ^ 32 = 2 ^ 32 → 0 < s.min_size)

def EditOp.Spares (s : Str) : EditOp → Prop
  | .assign d => Asks s (d.length % 2 ^ 32)
  | .assignText d => Asks s ((Bytes.cstr d).length % 2 ^ 32)
  | .append d => AppendSpares s d
  | .plus d => d = [] ∨ AppendSpares s d
  | .plusText d => AppendSpares s (Bytes.cstr d)
  | .insert _ d | .prepend d => InsertSpares s (Bytes.cstr d)
  | .remove pos len => len = 0 ∨ Asks s pos
  | .truncate n | .reserve n => Asks s n
  | .assignChar _ | .plusChar _ | .insertChar _ _ | .prependChar _ | .trim | .trimBegin | .trimEnd | .clear => True

/-- The calls that leave `EMPTY` alone. -/
def Op.Spares (s : Str) : Op → Prop
  | .edit c => c.Spares s
  | .resize size => Asks s size
  | .fill _ len => Asks s len
  | .removeString d _ _ => d.length < 2 ^ 32
  | .replaceFrom pos len d => s.string_length ≠ 0 → (Bytes.cstr d).length % 2 ^ 32 ≠ 0 →
      (pos + (Bytes.cstr d).length % 2 ^ 32) % 2 ^ 32 = 0 →
      (s.string_length + ((Bytes.cstr d).length % 2 ^ 32 + 2 ^ 32 - len % 2 ^ 32)) % 2 ^ 32 = 0 → 0 < s.min_size
  | .replaceChar c _ pos _ => s.str = none → c ≠ 0 ∨ 3 < pos
  | .replaceCharText _ d _ _ | .replaceText _ d _ _ => (Bytes.cstr d).length % 2 ^ 32 ≤ 2 ^ 31
  | .index _ _ => s.str ≠ none
  | .format fmt_length _ => 0 < fmt_length →
      Asks s ((fmt_length + 128) % 2 ^ 32) ∧ ((fmt_length + 128) % 2 ^ 32 = 0 → 0 < s.min_size)
  | .toUpper | .toLower | .removeChar _ _ _ | .removeText _ _ _ | .hash => True

def Init.Spares : Init → Prop
  | .default | .null => True
  | .reserve n => n + 16 < 2 ^ 32
  | .text d len => (Bytes.ofText d len).length % 2 ^ 32 + 16 < 2 ^ 32
  | .join s₁ s₂ => (Bytes.cstr s₁).length + (Bytes.cstr s₂).length + 16 < 2 ^ 32
  | .copy d => d.length % 2 ^ 32 + 16 < 2 ^ 32
  | .fill _ len => len + 16 < 2 ^ 32

variable {s s' : Str} {n : Nat} (fresh : Nat → UInt8)

theorem asks_of_some (hsome : s.str.isSome) : Asks s n := fun hnone => by
  rw [hnone] at hsome
  cases hsome

namespace Sane

section

variable {d : Bytes} (hs : Sane s)

include hs

theorem safe_resize (hn : Asks s n) : Safe (resize fresh n) s :=
  Str.safe_resize fresh hs.toAllocated fun hnone => ⟨hn hnone, by rw [(hs.none_iff.mp hnone).2]; decide⟩

/-- What follows a resize that gets a buffer has one to write to. -/
theorem safe_resized {f : Unit → Call Unit} (hn : Asks s n) (hpos : 0 < n ∨ 0 < s.min_size) (hf : ∀ a, Owns (f a)) :
    Safe (resize fresh n >>= f) s :=
  (hs.safe_resize fresh hn).bind fun a _ hrun => (hf a).safe (resize_isSome fresh hs.toAllocated hpos hrun)

theorem length_of_none (hnone : s.str = none) : s.string_length = 0 := (hs.none_iff.mp hnone).1

theorem safe_copy (h : Asks s (d.length % 2 ^ 32)) : Safe (copy fresh d) s := by
  unfold copy
  refine (hs.safe_resize fresh h).bind fun a s₁ hrun => ?_
  split
  next hpos =>
    exact (Owns.bind (owns_memcpy _ _) fun _ => owns_write _ _).safe
      (resize_isSome fresh hs.toAllocated (.inl hpos) hrun)
  next => exact safe_pure _ _

theorem safe_append (h : AppendSpares s d) : Safe (append fresh d) s := by
  have hpos : 0 < (d.length + s.string_length) % 2 ^ 32 ∨ 0 < s.min_size := by
    by_cases hzero : (d.length + s.string_length) % 2 ^ 32 = 0
    · exact .inr (h.2 hzero)
    · exact .inl (Nat.pos_of_ne_zero hzero)
  refine safe_resized fresh hs (fun hnone => ?_) hpos fun _ => Owns.bind (owns_int32Index _) fun _ =>
    Owns.bind (owns_memcpy _ _) fun _ => owns_get fun _ => owns_write _ _
  rw [hs.length_of_none hnone]
  exact h.1 hnone

theorem safe_plusChar (c : UInt8) : Safe (plusChar fresh c) s := by
  have hlen := hs.length_lt
  unfold plusChar
  split
  next => exact safe_pure _ _
  next =>
    refine safe_resized fresh hs (fun hnone => ?_) (.inl (by omega)) fun _ => owns_get fun _ => owns_write _ _
    rw [hs.length_of_none hnone]
    decide

theorem safe_insertChar (pos : Nat) (c : UInt8) : Safe (insertChar fresh pos c) s := by
  have hlen := hs.length_lt
  refine safe_resized fresh hs (fun hnone => ?_) (.inl (by omega)) fun _ =>
    owns_ite (fun _ => Owns.bind (owns_memmove _ _ _) fun _ => owns_write _ _) fun _ =>
      owns_ite (fun _ => owns_write _ _) fun _ => Owns.bind (owns_memmove _ _ _) fun _ => owns_write _ _
  rw [hs.length_of_none hnone]
  decide

theorem safe_insert (pos : Nat) (h : InsertSpares s d) : Safe (insert fresh pos d) s := by
  have hlen := hs.length_lt
  have hsize := Nat.mod_lt d.length (by decide : 0 < 2 ^ 32)
  have hn : Asks s ((s.string_length + d.length % 2 ^ 32) % 2 ^ 32) := fun hnone => by
    rw [hs.length_of_none hnone, Nat.zero_add, Nat.mod_mod]
    exact h.1 hnone
  by_cases hpos : 0 < (s.string_length + d.length % 2 ^ 32) % 2 ^ 32 ∨ 0 < s.min_size
  · exact safe_resized fresh hs hn hpos fun _ =>
      owns_ite (fun _ => Owns.bind (owns_memmove _ _ _) fun _ => owns_memcpy _ _) fun _ =>
        owns_ite (fun _ => owns_memcpy _ _) fun _ => Owns.bind (owns_memmove _ _ _) fun _ => owns_memcpy _ _
  · have hzero : s.string_length = 0 := by
      have := h.2
      omega
    have hd : d.length % 2 ^ 32 = 0 := by omega
    unfold insert
    dsimp only
    rw [Safe, get_bind, hd, hzero, List.take_zero]
    refine (hs.safe_resize fresh fun _ => by decide).bind fun _ s₁ _ => ?_
    split
    next =>
      intro hfault
      cases hfault
    next =>
      rw [if_pos (Nat.zero_le _)]
      intro hfault
      cases hfault

theorem safe_trimBegin : Safe (trimBegin fresh) s := by
  unfold trimBegin
  rw [Safe, get_bind]
  split
  next hsome =>
    refine Safe.bind ((owns_beginLoop _ _).safe hsome) fun _ s₁ hloop => ?_
    rw [show s₁ = s from same_beginLoop _ _ s _ s₁ hloop]
    refine Safe.bind ((owns_memmove _ _ _).safe hsome) fun _ s₂ hmove => ?_
    have hsome₂ := (owns_memmove _ _ _).isSome hsome hmove
    exact (keeps_memmove _ _ _ s _ s₂ hmove hs).safe_resize fresh (asks_of_some hsome₂)
  next => exact safe_pure _ _

theorem safe_trimEnd : Safe (trimEnd fresh) s := by
  unfold trimEnd
  rw [Safe, get_bind]
  split
  next hsome =>
    refine Safe.bind ((owns_endLoop _).safe hsome) fun _ s₁ hloop => ?_
    rw [show s₁ = s from same_endLoop _ s _ s₁ hloop]
    exact hs.safe_resize fresh (asks_of_some hsome)
  next => exact safe_pure _ _

theorem safe_remove {pos len : Nat} (h : len = 0 ∨ Asks s pos) : Safe (remove fresh pos len) s := by
  unfold remove
  rw [Safe, get_bind]
  split
  next => exact safe_pure _ _
  next hlen =>
    split
    next => exact hs.safe_resize fresh (h.resolve_left hlen)
    next hend =>
      have hsome : s.str.isSome := by
        by_contra hnone
        rw [hs.length_of_none (by simpa using hnone)] at hend
        exact hend (Nat.zero_le _)
      refine Safe.bind ((owns_memmove _ _ _).safe hsome) fun _ s₂ hmove => ?_
      have hsome₂ := (owns_memmove _ _ _).isSome hsome hmove
      exact (keeps_memmove _ _ _ s _ s₂ hmove hs).safe_resize fresh (asks_of_some hsome₂)

theorem safe_reserve (hn : Asks s n) : Safe (reserve fresh n) s := by
  refine @Str.safe_resize { s with min_size := n } s.string_length fresh
    ⟨hs.array_size_eq, hs.array_size_le⟩ fun hnone => ?_
  have hnone : s.str = none := hnone
  exact ⟨by rw [hs.length_of_none hnone]; decide, hn hnone⟩

theorem safe_edit {c : EditOp} (h : c.Spares s) : Safe (c.call fresh) s := by
  cases c with
  | assign d | assignText d => exact hs.safe_copy fresh h
  | assignChar c => exact safe_resized fresh hs (fun _ => by decide) (.inl Nat.one_pos) fun _ => owns_write _ _
  | append d | plusText d => exact hs.safe_append fresh h
  | plus d =>
    show Safe (plus fresh d) s
    unfold plus
    split
    next => exact safe_pure _ _
    next hd => exact hs.safe_append fresh (h.resolve_left hd)
  | plusChar c => exact hs.safe_plusChar fresh c
  | insert pos d => exact hs.safe_insert fresh pos h
  | prepend d => exact hs.safe_insert fresh 0 h
  | insertChar pos c => exact hs.safe_insertChar fresh pos c
  | prependChar c => exact hs.safe_insertChar fresh 0 c
  | trim =>
    refine (hs.safe_trimBegin fresh).bind fun _ s₁ hbegin => ?_
    exact (keeps_trimBegin fresh s _ s₁ hbegin hs).safe_trimEnd fresh
  | trimBegin => exact hs.safe_trimBegin fresh
  | trimEnd => exact hs.safe_trimEnd fresh
  | remove pos len => exact hs.safe_remove fresh h
  | truncate n => exact hs.safe_resize fresh h
  | clear => exact hs.safe_resize fresh fun _ => by decide
  | reserve n => exact hs.safe_reserve fresh h

/-- A replacement in a text: the move needs the room that the wrapped sizes take away, unless it moves nothing. -/
theorem buffered_replaceFrom {pos len : Nat} (hsome : s.str.isSome) (h : (Op.replaceFrom pos len d).Spares s)
    (hd : Bytes.cstr d = d) : Buffered (replaceFrom fresh pos len d) s := by
  have hlen := hs.length_lt
  have hroom := hs.buffer_le
  have hmod : s.string_length % 2 ^ 32 = s.string_length := Nat.mod_eq_of_lt (by omega)
  have htail : ∀ i j : Nat, Owns (memcpy pos (d.take i) >>= fun _ => write j 0) := fun i j =>
    Owns.bind (owns_memcpy _ _) fun _ => owns_write _ _
  rw [Op.Spares, hd] at h
  refine buffered_get ?_
  dsimp only
  rw [hmod]
  split
  next => exact (owns_pure _).buffered hsome
  next hzero =>
    split
    next hnsize =>
      split
      next hgrow =>
        refine Buffered.bind (hs.safe_resize fresh (asks_of_some hsome)) fun _ s₁ hrun => ?_
        have hsome₁ := resize_isSome fresh hs.toAllocated (.inl (by omega)) hrun
        refine Buffered.bind ((owns_memmove _ _ _).safe hsome₁) fun _ s₂ hmove => ?_
        rw [if_neg (by omega)]
        exact (htail _ _).buffered ((owns_memmove _ _ _).isSome hsome₁ hmove)
      next hgrow =>
        refine Buffered.bind ((owns_memmove _ _ _).safe hsome) fun _ s₁ hmove => ?_
        have hsome₁ := (owns_memmove _ _ _).isSome hsome hmove
        have hs₁ := keeps_memmove _ _ _ s _ s₁ hmove hs
        split
        next hshrink =>
          refine Buffered.bind (hs₁.safe_resize fresh (asks_of_some hsome₁)) fun _ s₂ hrun => ?_
          refine (htail _ _).buffered (resize_isSome fresh hs₁.toAllocated ?_ hrun)
          by_contra hnothing
          rw [memmove_min_size hmove] at hnothing
          have hdst : (pos + d.length % 2 ^ 32) % 2 ^ 32 ≠ 0 := fun hdst =>
            hnothing (.inr (h hzero (Nat.ne_of_gt hnsize) hdst (by omega)))
          have hmoved := memmove_inv (by omega) hmove
          omega
        next => exact (htail _ _).buffered hsome₁
    next => exact (htail _ _).buffered hsome

theorem safe_replaceFrom {pos len : Nat} (h : (Op.replaceFrom pos len d).Spares s) :
    Safe (replaceFrom fresh pos len (Bytes.cstr d)) s := by
  by_cases hsome : s.str.isSome
  · refine (hs.buffered_replaceFrom fresh hsome ?_ (Bytes.cstr_cstr d)).1
    rwa [Op.Spares, Bytes.cstr_cstr]
  · unfold replaceFrom
    dsimp only
    rw [Safe, get_bind, hs.length_of_none (by simpa using hsome)]
    intro hfault
    cases hfault

theorem safe_fill (c : UInt8) (h : Asks s n) : Safe (fill fresh c n) s := by
  have htail : ∀ t : Str, Safe (get >>= fun u : Str =>
      if u.str.isSome then memcpy 0 (List.replicate u.string_length c) else pure () : Call Unit) t := by
    intro t
    rw [Safe, get_bind]
    split
    next hsome => exact (owns_memcpy _ _).safe hsome
    next => exact safe_pure _ _
  unfold fill
  split
  next => exact (hs.safe_resize fresh h).bind fun _ s₁ _ => htail s₁
  next => exact htail s

theorem safe_caseLoop (f : UInt8 → UInt8) : Safe (caseLoop f s.string_length 0) s := by
  by_cases hsome : s.str.isSome
  · exact (owns_caseLoop _ _ _).safe hsome
  · rw [hs.length_of_none (by simpa using hsome)]
    exact safe_pure _ _

theorem safe_vformat (mem : Nat → Nat → UInt8) {fmt_length : Nat} (printed : Bytes)
    (h : (Op.format fmt_length printed).Spares s) : Safe (vformat mem fmt_length printed) s := by
  unfold vformat
  split
  next hfmt =>
    obtain ⟨hasks, hzero⟩ := h hfmt
    have hpos : 0 < (fmt_length + 128) % 2 ^ 32 ∨ 0 < s.min_size := by
      by_cases hn : (fmt_length + 128) % 2 ^ 32 = 0
      · exact .inr (hzero hn)
      · exact .inl (Nat.pos_of_ne_zero hn)
    refine (hs.safe_resize _ hasks).bind fun _ s₁ hrun => ?_
    have hs₁ := keeps_resize _ _ s _ s₁ hrun hs
    have hsome₁ := resize_isSome _ hs.toAllocated hpos hrun
    refine Safe.bind ((owns_memcpy _ _).safe hsome₁) fun _ s₂ hprint => ?_
    have hs₂ := keeps_memcpy _ _ s₁ _ s₂ hprint hs₁
    have hsome₂ := (owns_memcpy _ _).isSome hsome₁ hprint
    split
    next hmore =>
      refine (hs₂.safe_resize _ (asks_of_some hsome₂)).bind fun _ s₃ hrun₃ => ?_
      have hs₃ := keeps_resize _ _ s₂ _ s₃ hrun₃ hs₂
      have hsome₃ := resize_isSome _ hs₂.toAllocated (.inl (by omega)) hrun₃
      refine Safe.bind ((owns_memcpy _ _).safe hsome₃) fun _ s₄ hprint₄ => ?_
      exact (keeps_memcpy _ _ s₃ _ s₄ hprint₄ hs₃).safe_resize _
        (asks_of_some ((owns_memcpy _ _).isSome hsome₃ hprint₄))
    next => exact hs₂.safe_resize _ (asks_of_some hsome₂)
  next => exact hs.safe_resize _ fun _ => by decide

end

end Sane

end Str

end Srl
