import Srl.Session

namespace Session

/-- What a run is judged by: the calls that it has recorded, whether a call is in order, and which errors are
fatal, so that no handler catches them. -/
structure Audit (σ κ ε : Type) where
  calls : σ → List κ
  ok : κ → Prop
  fatal : ε → Prop

variable {σ κ ε α β : Type} {A : Audit σ κ ε} {T T' P P' : σ → Prop} {Q Q' : α → σ → Prop} {R : β → σ → Prop}
  {x y : Method σ ε α} {f : α → Method σ ε β} {s : σ}

/-- Run from a state in `P`, a call ends fatally just when one of the calls that it records is not in order;
what it returns stands in `Q` to the state that it leaves, and where it throws, that state is in `T`. -/
def Audited (A : Audit σ κ ε) (T P : σ → Prop) (x : Method σ ε α) (Q : α → σ → Prop) : Prop :=
  ∀ s, P s → ∃ cs, A.calls (x s).2 = A.calls s ++ cs ∧
    ((∃ e, (x s).1 = .error e ∧ A.fatal e) ↔ ¬∀ c ∈ cs, A.ok c) ∧
      (∀ a, (x s).1 = .ok a → Q a (x s).2) ∧ ∀ e, (x s).1 = .error e → ¬A.fatal e → T (x s).2

theorem exists_error_iff {F : ε → Prop} {e : ε} : (∃ e', (.error e : Except ε α) = .error e' ∧ F e') ↔ F e :=
  ⟨fun ⟨_, he, hfatal⟩ => Except.error.inj he ▸ hfatal, fun h => ⟨e, rfl, h⟩⟩

theorem Audited.mono (h : Audited A T P x Q) (hP : ∀ s, P' s → P s) (hQ : ∀ a s, Q a s → Q' a s) :
    Audited A T P' x Q' := by
  intro s hs
  obtain ⟨cs, hcalls, hfatal, hret, hthrown⟩ := h s (hP s hs)
  exact ⟨cs, hcalls, hfatal, fun a ha => hQ a _ (hret a ha), hthrown⟩

/-- The calls of a run that goes on where another one has stopped with all its calls in order. -/
theorem Audited.after {cs : List κ} {s₁ : σ} {y : Method σ ε β} (hy : Audited A T P y R) (hs₁ : P s₁)
    (hcalls : A.calls s₁ = A.calls s ++ cs) (hok : ∀ c ∈ cs, A.ok c) :
    ∃ cs', A.calls (y s₁).2 = A.calls s ++ cs' ∧ ((∃ e, (y s₁).1 = .error e ∧ A.fatal e) ↔ ¬∀ c ∈ cs', A.ok c) ∧
      (∀ b, (y s₁).1 = .ok b → R b (y s₁).2) ∧ ∀ e, (y s₁).1 = .error e → ¬A.fatal e → T (y s₁).2 := by
  obtain ⟨cs', hcalls', hfatal', hrest⟩ := hy s₁ hs₁
  refine ⟨cs ++ cs', by rw [hcalls', hcalls, List.append_assoc], ?_, hrest⟩
  rw [hfatal', List.forall_mem_append, and_iff_right hok]

theorem Audited.bind (hx : Audited A T P x Q) (hf : ∀ a, Audited A T (Q a) (f a) R) : Audited A T P (x >>= f) R := by
  intro s hs
  obtain ⟨cs, hcalls, hfatal, hret, hthrown⟩ := hx s hs
  cases hrun : x s with
  | mk r s₁ =>
    rw [hrun] at hcalls hfatal hret hthrown
    cases r with
    | error e =>
      rw [bind_error hrun]
      refine ⟨cs, hcalls, ?_, nofun, fun e' he => ?_⟩
      · rw [exists_error_iff] at hfatal ⊢
        exact hfatal
      · cases he
        exact hthrown e rfl
    | ok a =>
      have hok : ∀ c ∈ cs, A.ok c := by
        by_contra hbad
        obtain ⟨e, he, -⟩ := hfatal.mpr hbad
        cases he
      rw [bind_ok hrun]
      exact (hf a).after (hret a rfl) hcalls hok

theorem audited_pure (a : α) (h : ∀ s, P s → Q a s) : Audited A T P (pure a : Method σ ε α) Q := by
  intro s hs
  refine ⟨[], (List.append_nil _).symm, ⟨nofun, fun hbad => absurd nofun hbad⟩, fun b hb => ?_, nofun⟩
  cases hb
  exact h s hs

/-- An exception that can be caught. -/
theorem audited_throw {e : ε} (h : ¬A.fatal e) (hT : ∀ s, P s → T s) : Audited A T P (throw e : Method σ ε α) Q := by
  intro s hs
  refine ⟨[], (List.append_nil _).symm, ⟨?_, fun hbad => absurd nofun hbad⟩, nofun, fun _ _ _ => hT s hs⟩
  rintro ⟨e', he, hfatal⟩
  cases he
  exact absurd hfatal h

theorem audited_get {f : σ → Method σ ε β} (h : ∀ s, P s → Audited A T (· = s) (f s) R) :
    Audited A T P (get >>= f : Method σ ε β) R := fun s hs => h s hs s rfl

/-- A change of the state that records nothing. -/
theorem audited_modify {g : σ → σ} {Q : PUnit → σ → Prop} (hcalls : ∀ s, A.calls (g s) = A.calls s)
    (h : ∀ s, P s → Q ⟨⟩ (g s)) : Audited A T P (modify g : Method σ ε PUnit) Q := by
  intro s hs
  refine ⟨[], (hcalls s).trans (List.append_nil _).symm, ⟨nofun, fun hbad => absurd nofun hbad⟩, ?_, nofun⟩
  exact fun a _ => h s hs

theorem audited_ite {c : Prop} [Decidable c] (hx : c → Audited A T P x Q) (hy : ¬c → Audited A T P y Q) :
    Audited A T P (if c then x else y) Q := by
  split
  next h => exact hx h
  next h => exact hy h

theorem audited_false : Audited A T (fun _ => False) x Q := fun _ => False.elim

/-- A run that is known to end fatally. -/
theorem Audited.fails (hx : Audited A T P x Q) (hP : ∀ s, P' s → P s)
    (h : ∀ s, P' s → ∃ e, (x s).1 = .error e ∧ A.fatal e) : Audited A T' P' x Q' := by
  intro s hs
  obtain ⟨cs, hcalls, hfatal, -, -⟩ := hx s (hP s hs)
  obtain ⟨e, he, hfe⟩ := h s hs
  rw [he] at hfatal ⊢
  refine ⟨cs, hcalls, hfatal, nofun, fun e' he' hnot => ?_⟩
  cases he'
  exact absurd hfe hnot

theorem tryCatch_ok {handler : ε → Method σ ε α} {a : α} {s' : σ} (h : x s = (.ok a, s')) :
    tryCatch x handler s = (.ok a, s') := by
  show (match (x s).1 with
    | .ok a => (pure (.ok a) : StateM σ (Except ε α))
    | .error e => handler e) (x s).2 = _
  rw [h]
  rfl

theorem tryCatch_error {handler : ε → Method σ ε α} {e : ε} {s' : σ} (h : x s = (.error e, s')) :
    tryCatch x handler s = handler e s' := by
  show (match (x s).1 with
    | .ok a => (pure (.ok a) : StateM σ (Except ε α))
    | .error e => handler e) (x s).2 = _
  rw [h]

/-- Fatal errors pass through a handler, which catches all others. -/
theorem Audited.catch {handler : ε → Method σ ε α} (hx : Audited A T P x Q)
    (hcatch : ∀ e, ¬A.fatal e → Audited A T' T (handler e) Q)
    (hpass : ∀ e, A.fatal e → handler e = throw e) : Audited A T' P (tryCatch x handler) Q := by
  intro s hs
  obtain ⟨cs, hcalls, hfatal, hret, hthrown⟩ := hx s hs
  cases hrun : x s with
  | mk r s₁ =>
    rw [hrun] at hcalls hfatal hret hthrown
    cases r with
    | ok a =>
      rw [tryCatch_ok hrun]
      exact ⟨cs, hcalls, hfatal, hret, nofun⟩
    | error e =>
      rw [tryCatch_error hrun]
      by_cases hfe : A.fatal e
      · rw [hpass e hfe]
        refine ⟨cs, hcalls, hfatal, nofun, fun e' he hnot => ?_⟩
        cases he
        exact absurd hfe hnot
      · have hok : ∀ c ∈ cs, A.ok c := by
          by_contra hbad
          exact hfe (exists_error_iff.mp (hfatal.mpr hbad))
        exact (hcatch e hfe).after (hthrown e rfl hfe) hcalls hok

/-- Where nothing is thrown, a run returns just when all its calls are in order. -/
theorem Audited.returns_iff (h : Audited A (fun _ => False) P x Q) (hs : P s) (hcalls : A.calls s = []) :
    (∃ a, (x s).1 = .ok a ∧ Q a (x s).2) ↔ ∀ c ∈ A.calls (x s).2, A.ok c := by
  obtain ⟨cs, hcs, hfatal, hret, hthrown⟩ := h s hs
  rw [hcs, hcalls, List.nil_append]
  cases hrun : (x s).1 with
  | ok a =>
    rw [hrun] at hfatal hret
    refine ⟨fun _ => ?_, fun _ => ⟨a, rfl, hret a rfl⟩⟩
    by_contra hbad
    obtain ⟨e, he, -⟩ := hfatal.mpr hbad
    cases he
  | error e =>
    rw [hrun] at hfatal hthrown
    refine ⟨nofun, fun hok => ?_⟩
    have hnot : ¬A.fatal e := fun he => hfatal.mp ⟨e, rfl, he⟩ hok
    exact (hthrown e rfl hnot).elim

end Session
