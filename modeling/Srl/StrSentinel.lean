import Srl.StrSafeEdits
import Srl.StrSearches

namespace Srl

open Cells Session

namespace Str

/-- The first search of a call that makes one. -/
def Op.search : Op → Call Unit
  | .removeChar c pos _ | .replaceChar c _ pos _ | .replaceCharText c _ pos _ => do
    let _ ← find c pos
    pure ()
  | .removeText s pos _ | .removeString s pos _ | .replaceText s _ pos _ => do
    let _ ← findText (Bytes.cstr s) pos
    pure ()
  | _ => pure ()

/-- The call is stopped where `_str` is `EMPTY`, and not by its first search, which only reads. -/
def Op.WritesEmpty (mem : Nat → Nat → UInt8) (rounds : Nat) (c : Op) (s : Str) : Prop :=
  (c.search s).1 = .ok () ∧ (c.mutate mem rounds s).1 = .error .fault ∧ (c.mutate mem rounds s).2.str = none

def Init.WritesEmpty (fresh : Nat → UInt8) (init : Init) : Prop :=
  (init.call fresh empty).1 = .error .fault ∧ (init.call fresh empty).2.str = none

variable {s s' : Str} (fresh : Nat → UInt8)

/-- A removal that empties a string, or leaves `EMPTY`, starts at the front, unless it removes nothing. -/
theorem Sane.remove_none {pos len : Nat} (hs : Sane s) (hpos : pos < 2 ^ 31) (hlen : len < 2 ^ 32)
    (hrun : remove fresh pos len s = (.ok (), s')) (hnone : s'.str = none) : pos = 0 ∨ s' = s := by
  unfold remove at hrun
  rw [get_bind] at hrun
  split at hrun
  next =>
    cases hrun
    exact .inr rfl
  next hne =>
    split at hrun
    next =>
      obtain ⟨hs', hn, -⟩ := resize_sane hs.toAllocated hrun
      exact .inl (hn.symm.trans (hs'.length_of_none hnone))
    next hend =>
      obtain ⟨_, s₁, hmove, hrun⟩ := bind_inv hrun
      obtain ⟨hs', hn, -⟩ := resize_sane (keeps_memmove _ _ _ s () s₁ hmove hs).toAllocated hrun
      have hzero := hn.symm.trans (hs'.length_of_none hnone)
      have hmoved := memmove_inv (by omega) hmove
      have hroom := hs.buffer_le
      have hshort := hs.length_lt
      omega

section

variable {next : Nat → Call Int} {npos : Int} {d : Bytes} {len : Nat}

theorem safe_remove_found (hs : Sane s) (hnext : Searches next) (hfound : ∃ i, next i s = (.ok npos, s))
    (hpos : 0 ≤ npos)
    (hsmall : npos < 2 ^ 31) (hlen : len < 2 ^ 32) : Safe (remove fresh npos.toNat len) s ∧
      ∀ s', remove fresh npos.toNat len s = (.ok (), s') → True ∧ Safe (next npos.toNat) s' := by
  refine ⟨hs.safe_remove fresh (.inr fun _ => by omega), fun s' hrun => ⟨trivial, ?_⟩⟩
  by_cases hsome : s'.str.isSome
  · exact (hnext.owns _).safe hsome
  · have hnone : s'.str = none := by simpa using hsome
    obtain hzero | hsame := hs.remove_none fresh (by omega) hlen hrun hnone
    · rw [hzero]
      exact hnext.front s' hnone
    · rw [hsame] at hnone ⊢
      obtain ⟨i, hi⟩ := hfound
      exact hnext.again s i npos hnone hi hpos

theorem safe_replaceFrom_found (hs : Sane s) (hnext : Searches next)
    (hfound : ∃ i, next i s = (.ok npos, s)) (hpos : 0 ≤ npos)
    (hsmall : npos < 2 ^ 31) (hd : Bytes.cstr d = d) (hlen : d.length % 2 ^ 32 ≤ 2 ^ 31) :
    Safe (replaceFrom fresh npos.toNat len d) s ∧
      ∀ s', replaceFrom fresh npos.toNat len d s = (.ok (), s') → True ∧ Safe (next npos.toNat) s' := by
  by_cases hsome : s.str.isSome
  · obtain ⟨hsafe, hafter⟩ := @Sane.buffered_replaceFrom s fresh d hs npos.toNat len hsome
      (fun _ hne hzero => by rw [hd] at hne hzero; omega) hd
    exact ⟨hsafe, fun s' hrun => ⟨trivial, (hnext.owns _).safe (hafter () s' hrun)⟩⟩
  · have hnone : s.str = none := by simpa using hsome
    have hrun : replaceFrom fresh npos.toNat len d s = (.ok (), s) := by
      unfold replaceFrom
      rw [get_bind, hs.length_of_none hnone]
      rfl
    obtain ⟨i, hi⟩ := hfound
    rw [Safe, hrun]
    refine ⟨fun hfault => (by cases hfault), fun s' hs' => ⟨trivial, ?_⟩⟩
    cases hs'
    exact hnext.again s i npos hnone hi hpos

end

variable (mem : Nat → Nat → UInt8) (rounds : Nat)

theorem Sane.safe_replaceChar (hs : Sane s) {c₁ c₂ : UInt8} {pos : Nat} {all : Bool}
    (h : s.str = none → c₁ ≠ 0 ∨ 3 < pos)
    (hsearch : ((Op.replaceChar c₁ c₂ pos all).search s).1 = .ok ()) : Safe (replaceChar rounds c₁ c₂ pos all) s := by
  by_cases hsome : s.str.isSome
  · refine safe_loop (P := fun s => s.str.isSome) (searches_find c₁) (fun _ _ => keeps_write _ _)
      (fun k s npos hs hsome _ _ _ => ?_) hs hsome hsearch
    refine ⟨(owns_write _ _).safe hsome, fun s' hrun => ?_⟩
    have hsome' := (owns_write _ _).isSome hsome hrun
    exact ⟨hsome', ((searches_find c₁).owns _).safe hsome'⟩
  · have hnone : s.str = none := by simpa using hsome
    have hfind := find_none hnone c₁ pos
    split at hfind
    next hlt =>
      have hc : c₁ ≠ 0 := (h hnone).resolve_right (by omega)
      rw [if_neg hc] at hfind
      unfold replaceChar
      rw [Safe, bind_ok hfind]
      cases rounds with
      | zero => exact fun hfault => by cases hfault
      | succ rounds =>
        intro hfault
        cases hfault
    next =>
      rw [Op.search, bind_error hfind] at hsearch
      cases hsearch

/-- A call that spares `EMPTY` has a buffer wherever it is stopped behind its first search. -/
theorem Sane.safe_mutate (hs : Sane s) {c : Op} (h : c.Spares s) (hsearch : (c.search s).1 = .ok ()) :
    Safe (c.mutate mem rounds) s := by
  cases c with
  | edit c => exact hs.safe_edit _ h
  | resize size => exact hs.safe_resize _ h
  | fill c len => exact hs.safe_fill _ c h
  | toUpper | toLower => exact hs.safe_caseLoop _
  | removeChar c pos all =>
    exact safe_loop (P := fun _ => True) (searches_find c) (fun k _ => keeps_remove (mem k) _ _)
      (fun k s npos hs _ hfound hpos hsmall =>
        safe_remove_found (mem k) hs (searches_find c) hfound hpos hsmall (by decide)) hs trivial hsearch
  | removeText d pos all =>
    have hnext : Searches (findText (Bytes.cstr d)) := searches_findText fun _ hc => Bytes.ne_of_mem_cstr hc
    refine safe_loop (P := fun _ => True) hnext (fun k _ => keeps_remove (mem k) _ _)
      (fun k s npos hs _ hfound hpos hsmall => ?_) hs trivial hsearch
    obtain ⟨i, hi⟩ := hfound
    exact safe_remove_found (mem k) hs hnext ⟨i, hi⟩ hpos hsmall (hs.findText_length hi hpos)
  | removeString d pos all =>
    have hnext : Searches (findText (Bytes.cstr d)) := searches_findText fun _ hc => Bytes.ne_of_mem_cstr hc
    exact safe_loop (P := fun _ => True) hnext (fun k _ => keeps_remove (mem k) _ _)
      (fun k s npos hs _ hfound hpos hsmall =>
      safe_remove_found (mem k) hs hnext hfound hpos hsmall h) hs trivial hsearch
  | replaceFrom pos len d => exact hs.safe_replaceFrom _ h
  | replaceChar c₁ c₂ pos all => exact hs.safe_replaceChar rounds h hsearch
  | replaceCharText c d pos all =>
    exact safe_loop (P := fun _ => True) (searches_find c) (fun k _ => keeps_replaceFrom (mem k) _ _ _)
      (fun k s npos hs _ hfound hpos hsmall =>
        safe_replaceFrom_found (mem k) hs (searches_find c) hfound hpos hsmall (Bytes.cstr_cstr d) h) hs trivial hsearch
  | replaceText d₁ d₂ pos all =>
    have hnext : Searches (findText (Bytes.cstr d₁)) := searches_findText fun _ hc => Bytes.ne_of_mem_cstr hc
    exact safe_loop (P := fun _ => True) hnext (fun k _ => keeps_replaceFrom (mem k) _ _ _)
      (fun k s npos hs _ hfound hpos hsmall =>
      safe_replaceFrom_found (mem k) hs hnext hfound hpos hsmall (Bytes.cstr_cstr d₂) h) hs trivial hsearch
  | index i c => exact (owns_write i c).safe (Option.isSome_iff_ne_none.mpr h)
  | format fmt_length printed => exact hs.safe_vformat mem printed h
  | hash => exact safe_pure _ _

theorem safe_init {init : Init} (h : init.Spares) : Safe (init.call fresh) empty := by
  have hs := empty_sane
  cases init with
  | default | null => exact safe_pure _ _
  | reserve n =>
    exact @Str.safe_resize { empty with min_size := n } 0 fresh ⟨rfl, by show 0 + 16 ≤ 2 ^ 32; omega⟩
      fun _ => ⟨by decide, h⟩
  | text d len | copy d => exact hs.safe_copy fresh fun _ => h
  | join s₁ s₂ =>
    unfold Init.call
    dsimp only
    split
    next => exact safe_pure _ _
    next hne =>
      exact hs.safe_resized fresh (fun _ => h) (.inl (Nat.pos_of_ne_zero hne)) fun _ =>
        Owns.bind (owns_memcpy _ _) fun _ => owns_memcpy _ _
  | fill c len => exact hs.safe_fill fresh c fun _ => h

/-- A string that a constructor has made and calls have changed, each of which has returned. -/
inductive Made : Str → Prop
  | init {s : Str} (fresh : Nat → UInt8) (init : Init) (h : init.call fresh empty = (.ok (), s)) : Made s
  | call {s s' : Str} (mem : Nat → Nat → UInt8) (rounds : Nat) (c : Op) (r : Option UInt32) (hs : Made s)
      (h : c.call mem rounds s = (.ok r, s')) : Made s'

theorem keeps_hash : Within Keeps hash := by
  intro s _ s' hrun hs
  unfold hash at hrun
  rw [get_bind] at hrun
  split at hrun
  next =>
    cases hrun
    exact hs
  next =>
    split at hrun
    next => cases hrun
    next =>
      cases hrun
      exact ⟨⟨hs.array_size_eq, hs.array_size_le⟩, hs.room, hs.none_iff⟩

theorem Made.sane (h : Made s) : Sane s := by
  induction h with
  | init fresh init h => exact init_sane fresh init h
  | @call s s' mem rounds c r _ h hs =>
    by_cases hc : c = .hash
    · subst hc
      exact Keeps.bind keeps_hash (fun _ => keeps_pure _) s r s' h hs
    · rw [call_of_ne_hash mem rounds hc] at h
      exact Keeps.bind (keeps_mutate mem rounds c) (fun _ => keeps_pure _) s r s' h hs

end Str

end Srl
