import Srl.StrSafe
import Srl.StrFind

namespace Srl

open Cells Session

namespace Str

variable {s s' : Str}

theorem position_lt (i : Option Nat) : position i < 2 ^ 31 := by
  cases i with
  | none => decide
  | some i =>
    have hlt := @Int.bmod_lt (i : Int) (2 ^ 32) (by decide)
    unfold position
    dsimp only
    omega

theorem read_none (hnone : s.str = none) (i : Nat) :
    read i s = if i < 4 then (.ok 0, s) else (.error .fault, s) := by
  unfold read
  rw [get_bind, memory, hnone, Option.getD_none, show ([0, 0, 0, 0] : Bytes) = List.replicate 4 0 from rfl,
    List.getElem?_replicate]
  split <;> rfl

theorem find_none (hnone : s.str = none) (c : UInt8) (i : Nat) : find c i s =
    if i < 4 then (.ok (if c = 0 then position (some i) else -1), s) else (.error .fault, s) := by
  unfold find
  rw [get_bind, memory, hnone]
  show (charLoop c 5 i >>= fun i => pure (position i)) s = _
  split
  next hlt =>
    have hread := (read_none hnone i).trans (if_pos hlt)
    have hloop : charLoop c 5 i s = (.ok (if c = 0 then some i else none), s) := by
      refine (bind_ok hread).trans ?_
      by_cases hc : c = 0
      · rw [if_pos hc.symm, if_pos hc]
        rfl
      · rw [if_neg (Ne.symm hc), if_pos rfl, if_neg hc]
        rfl
    rw [bind_ok hloop]
    split <;> rfl
  next hge =>
    have hread := (read_none hnone i).trans (if_neg hge)
    exact bind_error (bind_error hread)

theorem findText_none (hnone : s.str = none) {needle : Bytes} (hneedle : ∀ c ∈ needle, c ≠ 0) (i : Nat) :
    findText needle i s = if needle = [] then (.ok (position (some i)), s)
      else if i < 4 then (.ok (-1), s) else (.error .fault, s) := by
  unfold findText
  rw [get_bind, memory, hnone]
  show (textLoop needle 5 i >>= fun i => pure (position i)) s = _
  cases needle with
  | nil => rfl
  | cons d needle =>
    have hd : d ≠ 0 := hneedle d List.mem_cons_self
    rw [if_neg (List.cons_ne_nil d needle)]
    split
    next hlt =>
      have hread := (read_none hnone i).trans (if_pos hlt)
      have hstarts : startsAt (d :: needle) i s = (.ok false, s) := by
        refine (bind_ok hread).trans ?_
        rw [if_neg (Ne.symm hd)]
        rfl
      have hloop : textLoop (d :: needle) 5 i s = (.ok none, s) :=
        (bind_ok hstarts).trans ((bind_ok hread).trans (by rw [if_pos rfl]; rfl))
      rw [bind_ok hloop]
      rfl
    next hge =>
      have hread := (read_none hnone i).trans (if_neg hge)
      exact bind_error (bind_error (bind_error hread))

/-- What the loops rely on in a search: it changes nothing, and where `_str` is `EMPTY` it does not run over from the
front, nor from where it found something. -/
structure Searches (next : Nat → Call Int) : Prop where
  same : ∀ i, Within Same (next i)
  owns : ∀ i, Owns (next i)
  small : ∀ i s npos s', next i s = (.ok npos, s') → npos < 2 ^ 31
  front : ∀ s, s.str = none → Safe (next 0) s
  again : ∀ s i npos, s.str = none → next i s = (.ok npos, s) → 0 ≤ npos → Safe (next npos.toNat) s

theorem owns_charLoop (c : UInt8) (fuel i : Nat) : Owns (charLoop c fuel i) := by
  induction fuel generalizing i with
  | zero => exact fun _ hs => hs
  | succ fuel ih =>
    exact Owns.bind (owns_read i) fun _ => owns_ite (fun _ => owns_pure _) fun _ =>
      owns_ite (fun _ => owns_pure _) fun _ => ih _

theorem owns_startsAt (needle : Bytes) (i : Nat) : Owns (startsAt needle i) := by
  induction needle generalizing i with
  | nil => exact owns_pure _
  | cons d needle ih => exact Owns.bind (owns_read i) fun _ => owns_ite (fun _ => ih _) fun _ => owns_pure _

theorem owns_textLoop (needle : Bytes) (fuel i : Nat) : Owns (textLoop needle fuel i) := by
  induction fuel generalizing i with
  | zero => exact fun _ hs => hs
  | succ fuel ih =>
    exact Owns.bind (owns_startsAt needle i) fun _ => owns_ite (fun _ => owns_pure _) fun _ =>
      Owns.bind (owns_read i) fun _ => owns_ite (fun _ => owns_pure _) fun _ => ih _

theorem searches_find (c : UInt8) : Searches (find c) := by
  refine ⟨same_find c, fun i => owns_get fun _ => Owns.bind (owns_charLoop _ _ _) fun _ => owns_pure _, ?_, ?_, ?_⟩
  · intro i s npos s' hrun
    obtain ⟨k, s₁, -, hrun⟩ := bind_inv (show (charLoop c (s.memory.length + 1) i >>= fun k =>
      pure (position k)) s = _ from hrun)
    cases hrun
    exact position_lt k
  · intro s hnone
    rw [Safe, find_none hnone, if_pos (by decide)]
    intro hfault
    cases hfault
  · intro s i npos hnone hrun hfound
    rw [find_none hnone] at hrun
    split at hrun
    next hlt =>
      cases hrun
      split at hfound
      next hc =>
        rw [Safe, if_pos hc, position_of_lt (by omega), Int.toNat_natCast, find_none hnone, if_pos hlt]
        intro hfault
        cases hfault
      next => exact absurd hfound (by decide)
    next => cases hrun

theorem searches_findText {needle : Bytes} (hneedle : ∀ c ∈ needle, c ≠ 0) : Searches (findText needle) := by
  refine ⟨same_findText needle, fun i => owns_get fun _ => Owns.bind (owns_textLoop _ _ _) fun _ =>
    owns_pure _, ?_, ?_, ?_⟩
  · intro i s npos s' hrun
    obtain ⟨k, s₁, -, hrun⟩ := bind_inv (show (textLoop needle (s.memory.length + 1) i >>= fun k =>
      pure (position k)) s = _ from hrun)
    cases hrun
    exact position_lt k
  · intro s hnone
    rw [Safe, findText_none hnone hneedle]
    split
    next =>
      intro hfault
      cases hfault
    next =>
      rw [if_pos (by decide)]
      intro hfault
      cases hfault
  · intro s i npos hnone hrun hfound
    rw [findText_none hnone hneedle] at hrun
    rw [Safe, findText_none hnone hneedle]
    split
    next =>
      intro hfault
      cases hfault
    next hne =>
      rw [if_neg hne] at hrun
      split at hrun
      next =>
        cases hrun
        exact absurd hfound (by decide)
      next => cases hrun

section

variable {next : Nat → Call Int} {body : Nat → Nat → Call Unit} {P : Str → Prop}

/-- A loop is safe if a change where something was found is, and the search from there on is after it. -/
theorem safe_eachFound (hnext : Searches next) (hkeeps : ∀ k i, Within Keeps (body k i))
    (hbody : ∀ k s npos, Sane s → P s → (∃ i, next i s = (.ok npos, s)) → 0 ≤ npos → npos < 2 ^ 31 →
      Safe (body k npos.toNat) s ∧ ∀ s', body k npos.toNat s = (.ok (), s') → P s' ∧ Safe (next npos.toNat) s')
    (all : Bool) (rounds : Nat) {npos : Int} (hs : Sane s) (hP : P s) (hfound : ∃ i, next i s = (.ok npos, s)) :
    Safe (eachFound next body all rounds npos) s := by
  induction rounds generalizing npos s with
  | zero => exact fun hfault => by cases hfault
  | succ rounds ih =>
    rw [eachFound]
    split
    next => exact safe_pure _ _
    next hneg =>
      obtain ⟨i, hi⟩ := hfound
      obtain ⟨hsafe, hafter⟩ := hbody rounds s npos hs hP ⟨i, hi⟩ (by omega) (hnext.small i s npos s hi)
      refine hsafe.bind fun _ s₁ hrun => ?_
      obtain ⟨hP₁, hsearch⟩ := hafter s₁ hrun
      have hs₁ := hkeeps rounds npos.toNat s () s₁ hrun hs
      split
      next =>
        refine hsearch.bind fun npos' s₂ hnpos => ?_
        obtain rfl : s₂ = s₁ := hnext.same _ s₁ npos' s₂ hnpos
        exact ih hs₁ hP₁ ⟨_, hnpos⟩
      next => exact safe_pure _ _

/-- A call that is a search and then a loop, if the search does not stop it. -/
theorem safe_loop {pos rounds : Nat} {all : Bool} (hnext : Searches next) (hkeeps : ∀ k i, Within Keeps (body k i))
    (hbody : ∀ k s npos, Sane s → P s → (∃ i, next i s = (.ok npos, s)) → 0 ≤ npos → npos < 2 ^ 31 →
      Safe (body k npos.toNat) s ∧ ∀ s', body k npos.toNat s = (.ok (), s') → P s' ∧ Safe (next npos.toNat) s')
    (hs : Sane s) (hP : P s) (hsearch : ((do let _ ← next pos; pure ()) s : Except Stop Unit × Str).1 = .ok ()) :
    Safe (next pos >>= fun npos => eachFound next body all rounds npos) s := by
  have hfirst : Safe (next pos) s := by
    intro hfault
    cases hrun : next pos s with
    | mk r s₁ =>
      rw [hrun] at hfault
      rw [bind_error (hrun.trans (Prod.ext hfault rfl))] at hsearch
      cases hsearch
  refine hfirst.bind fun npos s₁ hrun => ?_
  obtain rfl : s₁ = s := hnext.same _ s npos s₁ hrun
  exact safe_eachFound hnext hkeeps hbody all rounds hs hP ⟨_, hrun⟩

end

theorem read_lt {i : Nat} {b : UInt8} (h : read i s = (.ok b, s')) : i < s.memory.length := by
  by_contra hge
  unfold read at h
  rw [get_bind, List.getElem?_eq_none (Nat.le_of_not_lt hge)] at h
  cases h

theorem startsAt_length {needle : Bytes} {i : Nat} (h : startsAt needle i s = (.ok true, s')) :
    needle.length ≤ s.memory.length - i := by
  induction needle generalizing i with
  | nil => exact Nat.zero_le _
  | cons d needle ih =>
    obtain ⟨b, s₁, hread, hstarts⟩ := bind_inv h
    have hlt := read_lt hread
    obtain rfl : s₁ = s := same_read i s b s₁ hread
    split at hstarts
    next =>
      have hrest := ih hstarts
      rw [List.length_cons]
      omega
    next => cases hstarts

/-- What is found fits into the memory. -/
theorem textLoop_length {needle : Bytes} {fuel i k : Nat} (h : textLoop needle fuel i s = (.ok (some k), s')) :
    needle.length ≤ s.memory.length := by
  induction fuel generalizing i with
  | zero => cases h
  | succ fuel ih =>
    obtain ⟨b, s₁, hstarts, hloop⟩ := bind_inv h
    obtain rfl : s₁ = s := same_startsAt needle i s b s₁ hstarts
    split at hloop
    next hb =>
      rw [hb] at hstarts
      exact (startsAt_length hstarts).trans (Nat.sub_le _ _)
    next =>
      obtain ⟨c, s₂, hread, hrest⟩ := bind_inv hloop
      obtain rfl : s₂ = s₁ := same_read i s₁ c s₂ hread
      split at hrest
      next => cases hrest
      next => exact ih hrest

theorem Sane.findText_length {needle : Bytes} {i : Nat} {npos : Int} (hs : Sane s)
    (h : findText needle i s = (.ok npos, s))
    (hfound : 0 ≤ npos) : needle.length < 2 ^ 32 := by
  have hmem : s.memory.length < 2 ^ 32 := by
    have hroom := hs.buffer_le
    cases hstr : s.str with
    | none =>
      rw [memory, hstr]
      show 4 < 2 ^ 32
      omega
    | some b =>
      rw [buffer, hstr, Option.getD_some] at hroom
      rw [memory, hstr, Option.getD_some]
      omega
  obtain ⟨k, s₁, hloop, h⟩ := bind_inv (show (textLoop needle (s.memory.length + 1) i >>= fun k =>
    pure (position k)) s = _ from h)
  cases h
  cases k with
  | none => exact absurd hfound (by decide)
  | some k => exact Nat.lt_of_le_of_lt (textLoop_length hloop) hmem

end Str

end Srl
