import Srl.Json

namespace Srl.JSON

open IStream

variable {ν : Type} {num : Numbers ν} {input input' : IStream} {fuel : Nat}

/-- A character that was read can be put back. -/
theorem get_putback_suffix (s : IStream) (ch : UInt8) :
    (s.get ch).2.rest <:+ s.rest ∧ ((s.get ch).2.putback (s.get ch).1).rest <:+ s.rest := by
  cases hs : s.good with
  | false =>
    rw [get_of_not_good hs]
    refine ⟨List.suffix_refl _, ?_⟩
    simp [putback, sentry, IStream.good]
  | true =>
    rw [eq_ofString hs]
    cases s.rest with
    | nil =>
      rw [get_ofString_nil]
      exact ⟨List.suffix_refl _, List.suffix_refl _⟩
    | cons c rest =>
      rw [get_ofString_cons, putback_ofString]
      exact ⟨List.suffix_cons c rest, List.suffix_refl _⟩

theorem matchLoop_suffix (cur : Bytes) (ch : UInt8) (input : IStream) :
    (matchLoop cur ch input).2.rest <:+ input.rest := by
  induction cur generalizing ch input with
  | nil => exact List.suffix_refl _
  | cons p cur ih =>
    have hget := get_putback_suffix input ch
    unfold matchLoop
    split
    · exact List.suffix_refl _
    · dsimp only
      split
      · exact hget.2
      · exact (ih _ _).trans hget.1

theorem matchText_suffix {pattern : Bytes} {b : Bool} (h : matchText pattern input = (b, input')) :
    input'.rest <:+ input.rest := by
  have hloop := (matchLoop_suffix pattern 0 input.ws).trans (ws_suffix input)
  rw [show matchLoop pattern 0 input.ws = (b, input') from h] at hloop
  exact hloop

/-- A single character that was matched is gone. -/
theorem matchText_one {p : UInt8} (h : matchText [p] input = (true, input')) :
    input'.rest.length < input.rest.length := by
  have hlen := (ws_suffix input).length_le
  rw [matchText, matchLoop] at h
  split at h
  · cases h
  · next hgood =>
    have hws : input.ws.good = true := by
      simp only [Bool.or_eq_true, not_or, Bool.not_eq_true] at hgood
      simp [IStream.good, hgood]
    have heof : input.ws.rest ≠ [] := by
      intro hnil
      have : input.ws.eof = input.ws.rest.isEmpty := by
        unfold ws at hws ⊢
        dsimp only at hws ⊢
        split
        · rfl
        · next hs =>
          rw [if_neg hs] at hws
          exact absurd hws hs
      rw [hnil] at this
      simp [IStream.good, this] at hws
    obtain ⟨c, rest, hrest⟩ := List.exists_cons_of_ne_nil heof
    rw [eq_ofString hws, hrest, get_ofString_cons] at h
    rw [hrest, List.length_cons] at hlen
    dsimp only at h
    split at h
    · cases h
    · obtain rfl : ofString rest = input' := (Prod.mk.inj h).2
      show rest.length < input.rest.length
      omega

theorem stringLoop_suffix (input : IStream) (ch : UInt8) (value : Bytes) :
    (stringLoop input ch value).2.2.rest <:+ input.rest := by
  fun_induction stringLoop input ch value with
  | case1 input ch value hgood got hquote => exact (get_putback_suffix input ch).1
  | case2 input ch value hgood got hquote hescape next ih =>
    exact ih.trans ((get_putback_suffix got.2 got.1).1.trans (get_putback_suffix input ch).1)
  | case3 input ch value hgood got hquote hescape ih => exact ih.trans (get_putback_suffix input ch).1
  | case4 input ch value hgood => exact List.suffix_refl _

theorem parse_string_suffix {value : Option Bytes} (h : parse_string input = (value, input')) :
    input'.rest <:+ input.rest := by
  unfold parse_string at h
  split at h
  next input₁ hmatch =>
    cases h
    exact matchText_suffix hmatch
  next input₁ hmatch =>
    have hloop := (stringLoop_suffix input₁ 0 []).trans (matchText_suffix hmatch)
    dsimp only at h
    split at h <;> exact (Prod.mk.inj h).2 ▸ hloop

theorem parse_bool_suffix {value : Option Bool} (h : parse_bool input = (value, input')) :
    input'.rest <:+ input.rest := by
  unfold parse_bool at h
  split at h
  next input₁ hmatch =>
    cases h
    exact matchText_suffix hmatch
  next input₁ hmatch =>
    split at h
    next input₂ hmatch' =>
      cases h
      exact (matchText_suffix hmatch').trans (matchText_suffix hmatch)
    next input₂ hmatch' =>
      cases h
      exact (matchText_suffix hmatch').trans (matchText_suffix hmatch)

theorem extract_suffix (num : Numbers ν) (input : IStream) : (extract num input).2.rest <:+ input.rest := by
  have hdrop := (List.dropWhile_suffix isspace).trans (sentry_suffix input)
  unfold extract
  dsimp only
  split
  · split
    · exact hdrop
    · exact (num.extract_suffix _).trans hdrop
  · exact sentry_suffix input

theorem parse_number_suffix {value : Option ν} (h : parse_number num input = (value, input')) :
    input'.rest <:+ input.rest := by
  have hextract := (extract_suffix num input.ws).trans (ws_suffix input)
  unfold parse_number at h
  dsimp only at h
  split at h <;> exact (Prod.mk.inj h).2 ▸ hextract

/-- A call that comes to an end, and to an end of what it was given. -/
def Ends {α : Type} (r : Option (α × IStream)) (input : IStream) : Prop :=
  ∃ a input', r = some (a, input') ∧ input'.rest <:+ input.rest

theorem Ends.trans {α : Type} {r : Option (α × IStream)} (h : Ends r input') (hs : input'.rest <:+ input.rest) :
    Ends r input := by
  obtain ⟨a, input₁, hr, hsuffix⟩ := h
  exact ⟨a, input₁, hr, hsuffix.trans hs⟩

theorem ends_some {α : Type} {a : α} (h : input'.rest <:+ input.rest) : Ends (some (a, input')) input :=
  ⟨a, input', rfl, h⟩

/-- With `fuel` calls each function ends on every input that is short enough. -/
structure Total (num : Numbers ν) (fuel : Nat) : Prop where
  value : ∀ input : IStream, 4 * input.rest.length + 4 ≤ fuel → Ends (Value.parse num fuel input) input
  last : ∀ input : IStream, 4 * input.rest.length + 3 ≤ fuel → Ends (Value.parseObject num fuel input) input
  array : ∀ input : IStream, 4 * input.rest.length + 2 ≤ fuel → Ends (Array.parse num fuel input) input
  arrayLoop : ∀ (input : IStream) values, 4 * input.rest.length + 5 ≤ fuel →
    Ends (Array.parseLoop num fuel input values) input
  object : ∀ input : IStream, 4 * input.rest.length + 2 ≤ fuel → Ends (Object.parse num fuel input) input
  objectLoop : ∀ (input : IStream) value_map, 4 * input.rest.length + 5 ≤ fuel →
    Ends (Object.parseLoop num fuel input value_map) input

theorem Total.value_succ (t : Total num fuel) (input : IStream) (h : 4 * input.rest.length + 4 ≤ fuel + 1) :
    Ends (Value.parse num (fuel + 1) input) input := by
  unfold Value.parse
  split
  next s input₁ h₁ => exact ends_some (parse_string_suffix h₁)
  next input₁ h₁ =>
    have hs₁ := parse_string_suffix h₁
    split
    next x input₂ h₂ => exact ends_some ((parse_number_suffix h₂).trans hs₁)
    next input₂ h₂ =>
      have hs₂ := (parse_number_suffix h₂).trans hs₁
      split
      next b input₃ h₃ => exact ends_some ((parse_bool_suffix h₃).trans hs₂)
      next input₃ h₃ =>
        have hs₃ := (parse_bool_suffix h₃).trans hs₂
        split
        next input₄ h₄ => exact ends_some ((matchText_suffix h₄).trans hs₃)
        next input₄ h₄ =>
          have hs₄ := (matchText_suffix h₄).trans hs₃
          have hpeek := peek_rest input₄
          split
          next input₅ h₅ =>
            rw [h₅] at hpeek
            have hs₅ : input₅.rest <:+ input.rest := by rw [show input₅.rest = input₄.rest from hpeek]; exact hs₄
            have hlen := hs₅.length_le
            obtain ⟨values, input₆, hrun, hs⟩ := t.array input₅ (by omega)
            have hlen₆ := hs.length_le
            rw [hrun]
            cases values with
            | some values => exact ends_some (hs.trans hs₅)
            | none => exact (t.last input₆ (by omega)).trans (hs.trans hs₅)
          next c input₅ _ h₅ =>
            rw [h₅] at hpeek
            have hs₅ : input₅.rest <:+ input.rest := by rw [show input₅.rest = input₄.rest from hpeek]; exact hs₄
            have hlen := hs₅.length_le
            exact (t.last input₅ (by omega)).trans hs₅

theorem Total.last_succ (t : Total num fuel) (input : IStream) (h : 4 * input.rest.length + 3 ≤ fuel + 1) :
    Ends (Value.parseObject num (fuel + 1) input) input := by
  obtain ⟨value_map, input₁, hrun, hs⟩ := t.object input (by omega)
  unfold Value.parseObject
  rw [hrun]
  cases value_map with
  | some value_map => exact ends_some hs
  | none => exact ends_some hs

theorem Total.array_succ (t : Total num fuel) (input : IStream) (h : 4 * input.rest.length + 2 ≤ fuel + 1) :
    Ends (Array.parse num (fuel + 1) input) input := by
  unfold Array.parse
  split
  next input₁ h₁ => exact ends_some (matchText_suffix h₁)
  next input₁ h₁ =>
    have hs₁ := matchText_suffix h₁
    have hlt := matchText_one h₁
    obtain ⟨values, input₂, hrun, hs₂⟩ := t.arrayLoop input₁ [] (by omega)
    rw [hrun]
    dsimp only
    split
    next input₃ h₃ => exact ends_some ((matchText_suffix h₃).trans (hs₂.trans hs₁))
    next input₃ h₃ => exact ends_some ((matchText_suffix h₃).trans (hs₂.trans hs₁))

theorem Total.arrayLoop_succ (t : Total num fuel) (input : IStream) (values : List (Value ν))
    (h : 4 * input.rest.length + 5 ≤ fuel + 1) : Ends (Array.parseLoop num (fuel + 1) input values) input := by
  obtain ⟨v, input₁, hrun, hs₁⟩ := t.value input (by omega)
  unfold Array.parseLoop
  rw [hrun]
  cases v with
  | none => exact ends_some hs₁
  | some v =>
    dsimp only
    split
    next input₂ h₂ =>
      have hlt := matchText_one h₂
      have hlen := hs₁.length_le
      exact (t.arrayLoop input₂ _ (by omega)).trans ((matchText_suffix h₂).trans hs₁)
    next input₂ h₂ => exact ends_some ((matchText_suffix h₂).trans hs₁)

theorem Total.object_succ (t : Total num fuel) (input : IStream) (h : 4 * input.rest.length + 2 ≤ fuel + 1) :
    Ends (Object.parse num (fuel + 1) input) input := by
  unfold Object.parse
  split
  next input₁ h₁ => exact ends_some (matchText_suffix h₁)
  next input₁ h₁ =>
    have hs₁ := matchText_suffix h₁
    have hlt := matchText_one h₁
    obtain ⟨value_map, input₂, hrun, hs₂⟩ := t.objectLoop input₁ [] (by omega)
    rw [hrun]
    cases value_map with
    | none => exact ends_some (hs₂.trans hs₁)
    | some value_map =>
      dsimp only
      split
      next input₃ h₃ => exact ends_some ((matchText_suffix h₃).trans (hs₂.trans hs₁))
      next input₃ h₃ => exact ends_some ((matchText_suffix h₃).trans (hs₂.trans hs₁))

theorem Total.objectLoop_succ (t : Total num fuel) (input : IStream) (value_map : List (Bytes × Value ν))
    (h : 4 * input.rest.length + 5 ≤ fuel + 1) : Ends (Object.parseLoop num (fuel + 1) input value_map) input := by
  unfold Object.parseLoop
  split
  next input₁ h₁ => exact ends_some (parse_string_suffix h₁)
  next key input₁ h₁ =>
    have hs₁ := parse_string_suffix h₁
    split
    next input₂ h₂ => exact ends_some ((matchText_suffix h₂).trans hs₁)
    next input₂ h₂ =>
      have hs₂ := (matchText_suffix h₂).trans hs₁
      have hlen₂ := hs₂.length_le
      obtain ⟨v, input₃, hrun, hs₃⟩ := t.value input₂ (by omega)
      rw [hrun]
      cases v with
      | none => exact ends_some (hs₃.trans hs₂)
      | some v =>
        dsimp only
        split
        next input₄ h₄ =>
          have hlt := matchText_one h₄
          have hlen₃ := hs₃.length_le
          exact (t.objectLoop input₄ _ (by omega)).trans ((matchText_suffix h₄).trans (hs₃.trans hs₂))
        next input₄ h₄ => exact ends_some ((matchText_suffix h₄).trans (hs₃.trans hs₂))

theorem total (num : Numbers ν) (fuel : Nat) : Total num fuel := by
  induction fuel with
  | zero => constructor <;> intros <;> omega
  | succ fuel ih =>
    exact ⟨ih.value_succ, ih.last_succ, ih.array_succ, ih.arrayLoop_succ, ih.object_succ, ih.objectLoop_succ⟩

/-- What comes to an end with `fuel` calls comes to the same end with one more. -/
structure Stable (num : Numbers ν) (fuel : Nat) : Prop where
  value : ∀ input r, Value.parse num fuel input = some r → Value.parse num (fuel + 1) input = some r
  last : ∀ input r, Value.parseObject num fuel input = some r → Value.parseObject num (fuel + 1) input = some r
  array : ∀ input r, Array.parse num fuel input = some r → Array.parse num (fuel + 1) input = some r
  arrayLoop : ∀ input values r, Array.parseLoop num fuel input values = some r →
    Array.parseLoop num (fuel + 1) input values = some r
  object : ∀ input r, Object.parse num fuel input = some r → Object.parse num (fuel + 1) input = some r
  objectLoop : ∀ input value_map r, Object.parseLoop num fuel input value_map = some r →
    Object.parseLoop num (fuel + 1) input value_map = some r

theorem Stable.value_succ (st : Stable num fuel) (input : IStream) (r) (h : Value.parse num (fuel + 1) input = some r) :
    Value.parse num (fuel + 1 + 1) input = some r := by
  unfold Value.parse at h ⊢
  split
  next s input₁ h₁ => simpa only [h₁] using h
  next input₁ h₁ =>
    simp only [h₁] at h
    split
    next x input₂ h₂ => simpa only [h₂] using h
    next input₂ h₂ =>
      simp only [h₂] at h
      split
      next b input₃ h₃ => simpa only [h₃] using h
      next input₃ h₃ =>
        simp only [h₃] at h
        split
        next input₄ h₄ => simpa only [h₄] using h
        next input₄ h₄ =>
          simp only [h₄] at h
          split
          next input₅ h₅ =>
            simp only [h₅] at h
            cases hrun : Array.parse num fuel input₅ with
            | none => simp only [hrun, reduceCtorEq] at h
            | some a =>
              obtain ⟨values, input₆⟩ := a
              simp only [hrun] at h
              rw [st.array _ _ hrun]
              cases values with
              | some values => exact h
              | none => exact st.last _ _ h
          next c input₅ hc h₅ =>
            split at h
            next input₆ h₆ =>
              obtain ⟨rfl, -⟩ := Prod.mk.inj (h₅.symm.trans h₆)
              exact (hc rfl).elim
            next _ input₆ _ h₆ =>
              obtain ⟨-, rfl⟩ := Prod.mk.inj (h₅.symm.trans h₆)
              exact st.last _ _ h

theorem Stable.last_succ (st : Stable num fuel) (input : IStream) (r)
    (h : Value.parseObject num (fuel + 1) input = some r) : Value.parseObject num (fuel + 1 + 1) input = some r := by
  unfold Value.parseObject at h ⊢
  cases hrun : Object.parse num fuel input with
  | none => simp only [hrun, reduceCtorEq] at h
  | some a =>
    rw [st.object _ _ hrun]
    simpa only [hrun] using h

theorem Stable.array_succ (st : Stable num fuel) (input : IStream) (r) (h : Array.parse num (fuel + 1) input = some r) :
    Array.parse num (fuel + 1 + 1) input = some r := by
  unfold Array.parse at h ⊢
  split
  next input₁ h₁ => simpa only [h₁] using h
  next input₁ h₁ =>
    simp only [h₁] at h
    cases hrun : Array.parseLoop num fuel input₁ [] with
    | none => simp only [hrun, reduceCtorEq] at h
    | some a =>
      rw [st.arrayLoop _ _ _ hrun]
      simpa only [hrun] using h

theorem Stable.arrayLoop_succ (st : Stable num fuel) (input : IStream) (values : List (Value ν)) (r)
    (h : Array.parseLoop num (fuel + 1) input values = some r) :
    Array.parseLoop num (fuel + 1 + 1) input values = some r := by
  unfold Array.parseLoop at h ⊢
  cases hrun : Value.parse num fuel input with
  | none => simp only [hrun, reduceCtorEq] at h
  | some a =>
    obtain ⟨v, input₁⟩ := a
    simp only [hrun] at h
    rw [st.value _ _ hrun]
    cases v with
    | none => exact h
    | some v =>
      dsimp only at h ⊢
      split
      next input₂ h₂ =>
        simp only [h₂] at h
        exact st.arrayLoop _ _ _ h
      next input₂ h₂ => simpa only [h₂] using h

theorem Stable.object_succ (st : Stable num fuel) (input : IStream) (r)
    (h : Object.parse num (fuel + 1) input = some r) :
    Object.parse num (fuel + 1 + 1) input = some r := by
  unfold Object.parse at h ⊢
  split
  next input₁ h₁ => simpa only [h₁] using h
  next input₁ h₁ =>
    simp only [h₁] at h
    cases hrun : Object.parseLoop num fuel input₁ [] with
    | none => simp only [hrun, reduceCtorEq] at h
    | some a =>
      rw [st.objectLoop _ _ _ hrun]
      simpa only [hrun] using h

theorem Stable.objectLoop_succ (st : Stable num fuel) (input : IStream) (value_map : List (Bytes × Value ν)) (r)
    (h : Object.parseLoop num (fuel + 1) input value_map = some r) :
    Object.parseLoop num (fuel + 1 + 1) input value_map = some r := by
  unfold Object.parseLoop at h ⊢
  split
  next input₁ h₁ => simpa only [h₁] using h
  next key input₁ h₁ =>
    simp only [h₁] at h
    split
    next input₂ h₂ => simpa only [h₂] using h
    next input₂ h₂ =>
      simp only [h₂] at h
      cases hrun : Value.parse num fuel input₂ with
      | none => simp only [hrun, reduceCtorEq] at h
      | some a =>
        obtain ⟨v, input₃⟩ := a
        simp only [hrun] at h
        rw [st.value _ _ hrun]
        cases v with
        | none => exact h
        | some v =>
          dsimp only at h ⊢
          split
          next input₄ h₄ =>
            simp only [h₄] at h
            exact st.objectLoop _ _ _ h
          next input₄ h₄ => simpa only [h₄] using h

theorem stable (num : Numbers ν) (fuel : Nat) : Stable num fuel := by
  induction fuel with
  | zero => constructor <;> intros <;> contradiction
  | succ fuel ih =>
    exact ⟨ih.value_succ, ih.last_succ, ih.array_succ, ih.arrayLoop_succ, ih.object_succ, ih.objectLoop_succ⟩

theorem parse_stable {r : Option (Value ν) × IStream} (h : Value.parse num fuel input = some r) :
    ∀ {fuel' : Nat}, fuel ≤ fuel' → Value.parse num fuel' input = some r := by
  intro fuel' hle
  induction hle with
  | refl => exact h
  | step _ ih => exact (stable num _).value _ _ ih

theorem arrayLoop_stable {values : List (Value ν)} {r : List (Value ν) × IStream}
    (h : Array.parseLoop num fuel input values = some r) :
    ∀ {fuel' : Nat}, fuel ≤ fuel' → Array.parseLoop num fuel' input values = some r := by
  intro fuel' hle
  induction hle with
  | refl => exact h
  | step _ ih => exact (stable num _).arrayLoop _ _ _ ih

theorem objectLoop_stable {value_map : List (Bytes × Value ν)} {r : Option (List (Bytes × Value ν)) × IStream}
    (h : Object.parseLoop num fuel input value_map = some r) :
    ∀ {fuel' : Nat}, fuel ≤ fuel' → Object.parseLoop num fuel' input value_map = some r := by
  intro fuel' hle
  induction hle with
  | refl => exact h
  | step _ ih => exact (stable num _).objectLoop _ _ _ ih

/-- The recursive descent ends on every input, in a state that does not depend on the calls it is allowed, and what it
leaves is a tail of what it was given. -/
theorem parse_ends (num : Numbers ν) (input : IStream) : ∃ v input', input'.rest <:+ input.rest ∧
    ∀ fuel, 4 * input.rest.length + 4 ≤ fuel → Value.parse num fuel input = some (v, input') := by
  obtain ⟨v, input', hrun, hs⟩ := (total num _).value input (Nat.le_refl _)
  exact ⟨v, input', hs, fun _ hle => parse_stable hrun hle⟩

end Srl.JSON
