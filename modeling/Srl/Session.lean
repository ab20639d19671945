import Mathlib.Data.List.Basic

namespace Session

variable {σ τ ε α β ρ : Type} {s s' : σ}

/-- A call that changes a state and may throw; the state it leaves then is the one it had reached. -/
abbrev Method (σ ε β : Type) := ExceptT ε (StateM σ) β

theorem bind_ok {x : Method σ ε α} {f : α → Method σ ε β} {a : α} (h : x s = (.ok a, s')) :
    (x >>= f) s = f a s' := by
  show ExceptT.bindCont f (x s).1 (x s).2 = _
  rw [h]
  rfl

theorem bind_error {x : Method σ ε α} {f : α → Method σ ε β} {e : ε} (h : x s = (.error e, s')) :
    (x >>= f) s = (.error e, s') := by
  show ExceptT.bindCont f (x s).1 (x s).2 = _
  rw [h]
  rfl

/-- A call that returns went through a first part that returned. -/
theorem bind_inv {x : Method σ ε α} {f : α → Method σ ε β} {b : β} (h : (x >>= f) s = (.ok b, s')) :
    ∃ a s₁, x s = (.ok a, s₁) ∧ f a s₁ = (.ok b, s') := by
  cases hs : x s with
  | mk r s₁ =>
    cases r with
    | ok a => exact ⟨a, s₁, rfl, (bind_ok hs).symm.trans h⟩
    | error e =>
      rw [bind_error hs] at h
      cases h

theorem get_bind (f : σ → Method σ ε β) (s : σ) : (get >>= f : Method σ ε β) s = f s s := rfl

theorem modify_bind (g : σ → σ) (f : PUnit → Method σ ε β) (s : σ) :
    (modify g >>= f : Method σ ε β) s = f ⟨⟩ (g s) := rfl

/-- A call on a part of the state. -/
def part (view : σ → τ) (put : τ → σ → σ) (x : Method τ ε α) : Method σ ε α := fun s =>
  ((x (view s)).1, put (x (view s)).2 s)

theorem part_eq {view : σ → τ} {put : τ → σ → σ} {x : Method τ ε α} {r : Except ε α} {t : τ} (h : x (view s) = (r, t)) :
    part view put x s = (r, put t s) := by
  unfold part
  rw [h]

/-- A call that returns leads to a state that stands in `P` to the one before it. -/
def Within (P : σ → σ → Prop) (x : Method σ ε β) : Prop := ∀ s b s', x s = (.ok b, s') → P s s'

section

variable {P Q R : σ → σ → Prop} {x y : Method σ ε α} {f : α → Method σ ε β}

theorem within_mono (h : Within P x) (hPQ : ∀ s s', P s s' → Q s s') : Within Q x := fun s b s' hx =>
  hPQ s s' (h s b s' hx)

theorem within_bind (hx : Within P x) (hf : ∀ a, Within Q (f a)) (h : ∀ s₁ s₂ s₃, P s₁ s₂ → Q s₂ s₃ → R s₁ s₃) :
    Within R (x >>= f) := by
  intro s b s' hrun
  obtain ⟨a, s₁, hs, hrun⟩ := bind_inv hrun
  exact h s s₁ s' (hx s a s₁ hs) (hf a s₁ b s' hrun)

theorem within_get {f : σ → Method σ ε β} (hf : ∀ s, Within P (f s)) : Within P (get >>= f : Method σ ε β) :=
  fun s b s' hrun => hf s s b s' hrun

theorem within_pure (h : ∀ s, P s s) (a : α) : Within P (pure a : Method σ ε α) := by
  intro s b s' hrun
  cases hrun
  exact h s

theorem within_throw (e : ε) : Within P (throw e : Method σ ε α) := by
  intro s b s' hrun
  cases hrun

theorem within_ite {c : Prop} [Decidable c] (hx : c → Within P x) (hy : ¬c → Within P y) :
    Within P (if c then x else y) := by
  split
  next h => exact hx h
  next h => exact hy h

end

/-- The answers to a list of calls, made whatever the answers before them were, and the last state. -/
def run (step : α → σ → ρ × σ) : List α → σ → List ρ × σ
  | [], s => ([], s)
  | a :: as, s => ((step a s).1 :: (run step as (step a s).2).1, (run step as (step a s).2).2)

/-- Every call of a list meets `ok` in the state in which it is made. -/
def Always (step : α → σ → ρ × σ) (ok : α → σ → Prop) : List α → σ → Prop
  | [], _ => True
  | a :: as, s => ok a s ∧ Always step ok as (step a s).2

instance decidableAlways (step : α → σ → ρ × σ) (ok : α → σ → Prop) [∀ a s, Decidable (ok a s)] :
    ∀ as s, Decidable (Always step ok as s)
  | [], _ => isTrue trivial
  | a :: as, s => @instDecidableAnd (ok a s) _ _ (decidableAlways step ok as (step a s).2)

variable {step : α → σ → ρ × σ} {spec : α → τ → ρ × τ} {ok : α → σ → Prop} {ok' : α → τ → Prop}
  {R : σ → τ → Prop} {as : List α} {t : τ}

theorem always_of_forall (h : ∀ a s, ok a s) : Always step ok as s := by
  induction as generalizing s with
  | nil => trivial
  | cons a as ih => exact ⟨h a s, ih⟩

theorem Always.and {ok₁ ok₂ : α → σ → Prop} (h₁ : Always step ok₁ as s) (h₂ : Always step ok₂ as s) :
    Always step (fun a s => ok₁ a s ∧ ok₂ a s) as s := by
  induction as generalizing s with
  | nil => trivial
  | cons a as ih => exact ⟨⟨h₁.1, h₂.1⟩, ih h₁.2 h₂.2⟩

/-- What holds after every part of a list of calls holds before and after each of them. -/
theorem always_of_prefixes {P : σ → Prop} (h : ∀ bs, bs <+: as → P (run step bs s).2) :
    Always step (fun a s => P s ∧ P (step a s).2) as s := by
  induction as generalizing s with
  | nil => trivial
  | cons a as ih =>
    have htail : ∀ bs, bs <+: as → P (run step bs (step a s).2).2 := fun bs hbs =>
      h (a :: bs) (List.cons_prefix_cons.mpr ⟨rfl, hbs⟩)
    exact ⟨⟨h [] List.nil_prefix, htail [] List.nil_prefix⟩, ih htail⟩

theorem run_answers {P : ρ → Prop} (h : ∀ a s, P (step a s).1) : ∀ r ∈ (run step as s).1, P r := by
  induction as generalizing s with
  | nil => nofun
  | cons a as ih =>
    intro r hr
    rcases List.mem_cons.mp hr with rfl | hr
    · exact h a s
    · exact ih r hr

/-- Calls that give the same answers in related states, and lead to related states, do so over every
list of calls. -/
theorem run_simulates (hstep : ∀ a s t, R s t → ok a s → ok' a t →
      (step a s).1 = (spec a t).1 ∧ R (step a s).2 (spec a t).2)
    (h : R s t) (hok : Always step ok as s) (hok' : Always spec ok' as t) :
    (run step as s).1 = (run spec as t).1 ∧ R (run step as s).2 (run spec as t).2 := by
  induction as generalizing s t with
  | nil => exact ⟨rfl, h⟩
  | cons a as ih =>
    obtain ⟨hans, hr⟩ := hstep a s t h hok.1 hok'.1
    obtain ⟨hrest, hlast⟩ := ih hr hok.2 hok'.2
    refine ⟨?_, hlast⟩
    rw [run, run, hans, hrest]

end Session
