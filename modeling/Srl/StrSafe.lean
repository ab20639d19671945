import Srl.StrSane

namespace Srl

open Cells Session

namespace Str

/-- A call that is stopped has a buffer then. -/
def Safe {α : Type} (x : Call α) (s : Str) : Prop := (x s).1 = .error .fault → (x s).2.str.isSome

/-- A call that starts with a buffer ends with one. -/
def Owns {α : Type} (x : Call α) : Prop := ∀ s, s.str.isSome → (x s).2.str.isSome

section

variable {α β : Type} {x : Call α} {f : α → Call β} {s : Str}

theorem Safe.bind (hx : Safe x s) (hf : ∀ a s', x s = (.ok a, s') → Safe (f a) s') : Safe (x >>= f) s := by
  intro hfault
  cases hs : x s with
  | mk r s₁ =>
    cases r with
    | ok a =>
      rw [bind_ok hs] at hfault ⊢
      exact hf a s₁ hs hfault
    | error e =>
      rw [bind_error hs] at hfault ⊢
      refine (congrArg (fun r => r.2.str.isSome) hs).symm.trans (hx ?_)
      rw [hs]
      exact congrArg _ (Except.error.inj hfault)

theorem safe_pure (a : α) (s : Str) : Safe (pure a : Call α) s := fun hfault => by cases hfault

theorem Owns.safe (hx : Owns x) (hs : s.str.isSome) : Safe x s := fun _ => hx s hs

theorem Owns.isSome {r : Except Stop α} {s' : Str} (hx : Owns x) (hs : s.str.isSome) (hrun : x s = (r, s')) :
    s'.str.isSome := by
  have hsome := hx s hs
  rwa [hrun] at hsome

theorem Owns.bind (hx : Owns x) (hf : ∀ a, Owns (f a)) : Owns (x >>= f) := by
  intro s hs
  have hsome := hx s hs
  cases hrun : x s with
  | mk r s₁ =>
    rw [hrun] at hsome
    cases r with
    | ok a =>
      rw [bind_ok hrun]
      exact hf a s₁ hsome
    | error e =>
      rw [bind_error hrun]
      exact hsome

/-- Safe, and with a buffer when it returns. -/
def Buffered (x : Call α) (s : Str) : Prop := Safe x s ∧ ∀ a s', x s = (.ok a, s') → s'.str.isSome

theorem Owns.buffered (hx : Owns x) (hs : s.str.isSome) : Buffered x s :=
  ⟨hx.safe hs, fun _ _ hrun => hx.isSome hs hrun⟩

theorem Buffered.bind (hx : Safe x s) (hf : ∀ a s', x s = (.ok a, s') → Buffered (f a) s') : Buffered (x >>= f) s := by
  refine ⟨hx.bind fun a s' hrun => (hf a s' hrun).1, fun b s' hrun => ?_⟩
  obtain ⟨a, s₁, hs₁, hrun⟩ := bind_inv hrun
  exact (hf a s₁ hs₁).2 b s' hrun

theorem buffered_get {f : Str → Call β} (h : Buffered (f s) s) : Buffered (get >>= f : Call β) s := h

theorem owns_pure (a : α) : Owns (pure a : Call α) := fun _ hs => hs

theorem owns_get {f : Str → Call β} (hf : ∀ s, Owns (f s)) : Owns (get >>= f : Call β) := fun s hs => hf s s hs

theorem owns_ite {c : Prop} [Decidable c] {y : Call α} (hx : c → Owns x) (hy : ¬c → Owns y) :
    Owns (if c then x else y) := by
  split
  next h => exact hx h
  next h => exact hy h

end

theorem owns_read (i : Nat) : Owns (read i) := by
  refine owns_get fun s => ?_
  split
  next => exact owns_pure _
  next => exact fun _ hs => hs

theorem owns_write (i : Nat) (c : UInt8) : Owns (write i c) := by
  intro s hs
  rw [write_run]
  split
  next => rfl
  next => exact hs

theorem owns_memcpy (i : Nat) (d : Bytes) : Owns (memcpy i d) := by
  refine owns_get fun s => owns_ite (fun _ => owns_pure _) fun _ => ?_
  exact owns_ite (fun _ _ _ => rfl) fun _ _ hs => hs

theorem owns_memmove (j i n : Nat) : Owns (memmove j i n) := by
  refine owns_get fun s => owns_ite (fun _ => owns_pure _) fun _ => ?_
  exact owns_ite (fun _ _ _ => rfl) fun _ _ hs => hs

theorem owns_int32Index (i : Nat) : Owns (int32Index i) := owns_ite (fun _ => owns_pure _) fun _ _ hs => hs

theorem owns_beginLoop (fuel i : Nat) : Owns (beginLoop fuel i) := by
  induction fuel generalizing i with
  | zero => exact owns_pure _
  | succ fuel ih => exact Owns.bind (owns_read i) fun _ => owns_ite (fun _ => ih _) fun _ => owns_pure _

theorem owns_endLoop (e : Nat) : Owns (endLoop e) := by
  induction e with
  | zero => exact owns_pure _
  | succ e ih => exact Owns.bind (owns_read e) fun _ => owns_ite (fun _ => ih) fun _ => owns_pure _

theorem owns_caseLoop (f : UInt8 → UInt8) (fuel i : Nat) : Owns (caseLoop f fuel i) := by
  induction fuel generalizing i with
  | zero => exact owns_pure _
  | succ fuel ih => exact Owns.bind (owns_read i) fun _ => Owns.bind (owns_write _ _) fun _ => ih _

variable {s s' : Str} {n : Nat} (fresh : Nat → UInt8)

theorem memmove_min_size {i j : Nat} (h : memmove j i n s = (.ok (), s')) : s'.min_size = s.min_size := by
  unfold memmove at h
  rw [get_bind] at h
  split at h
  next =>
    cases h
    rfl
  next =>
    split at h
    next =>
      cases h
      rfl
    next => cases h

/-- A resize writes to `EMPTY` only where the size it asks for rounds up to 0. -/
theorem safe_resize (hs : Allocated s) (hn : s.str = none → n + 16 < 2 ^ 32 ∧ s.min_size + 16 < 2 ^ 32) :
    Safe (resize fresh n) s := by
  unfold resize Safe
  rw [modify_bind, get_bind]
  dsimp only
  by_cases hpos : 0 < n ∨ 0 < s.min_size
  · rw [if_pos hpos]
    by_cases hsame : rounded { s with hash_value := 0, string_length := n } n = s.array_size
    · rw [if_pos hsame, write_run]
      split
      next =>
        intro hfault
        cases hfault
      next =>
        intro _
        by_contra hnone
        have hnone : s.str = none := by simpa using hnone
        obtain ⟨hn, hm⟩ := hn hnone
        have hr := lt_rounded hn hm
        have hzero : s.array_size = 0 := by
          rw [hs.array_size_eq, buffer, hnone]
          rfl
        have hsame : s.rounded n = s.array_size := hsame
        omega
    · rw [if_neg hsame]
      intro _
      have howns : Owns (write n 0 >>= fun _ => modify fun t : Str =>
          { t with array_size := rounded { s with hash_value := 0, string_length := n } n }) :=
        Owns.bind (owns_write n 0) fun _ _ ht => ht
      exact howns _ rfl
  · rw [if_neg hpos]
    intro hfault
    cases hfault

/-- A resize that asks for something gets a buffer. -/
theorem resize_isSome (hs : Allocated s) (hpos : 0 < n ∨ 0 < s.min_size) (hrun : resize fresh n s = (.ok (), s')) :
    s'.str.isSome := by
  obtain ⟨hsane, hn, hm⟩ := resize_sane hs hrun
  by_contra hnone
  have hzero := hsane.none_iff.mp (by simpa using hnone)
  omega

end Str

end Srl
