import Srl.TextFile

namespace Srl

open Bytes

namespace TextFile

/-- The recursion of `readLine` with its flag. -/
def readLineWithLoop (strip_eol : Bool) : Nat → TextFile → Bytes × TextFile
  | 0, f => ([], f)
  | fuel + 1, f =>
    match (f.fgets 1039).1 with
    | none => ([], (f.fgets 1039).2)
    | some got =>
      let text := cstr got
      if text.length < 1023 then (if strip_eol then stripEol text else text, (f.fgets 1039).2)
      else
        let more := readLineWithLoop strip_eol fuel (f.fgets 1039).2
        (text ++ more.1, more.2)

/-- `readLine(strip_eol)`. -/
def readLineWith (strip_eol : Bool) (f : TextFile) : Bytes × TextFile :=
  readLineWithLoop strip_eol (f.rest.length + 1) f

/-- What `n` calls in a row return. -/
def readLines (strip_eol : Bool) : Nat → TextFile → List Bytes
  | 0, _ => []
  | n + 1, f => (readLineWith strip_eol f).1 :: readLines strip_eol n (readLineWith strip_eol f).2

/-- The lines of a file, each with its line feed. -/
def fileLines : Bytes → List Bytes
  | [] => []
  | c :: s =>
    if c = 10 then [10] :: fileLines s
    else
      match fileLines s with
      | [] => [[c]]
      | u :: us => (c :: u) :: us

variable {strip_eol : Bool} {f : TextFile} {s u v rest : Bytes} {c : UInt8} {e : Bool} {fuel n : Nat}

theorem readLineWith_true (f : TextFile) : readLineWith true f = readLine f := by
  have hloop : ∀ fuel f, readLineWithLoop true fuel f = readLineLoop fuel f := by
    intro fuel
    induction fuel with
    | zero => exact fun _ => rfl
    | succ fuel ih =>
      intro f
      rw [readLineWithLoop, readLineLoop, funext ih]
      rfl
  exact hloop _ f

theorem fileLines_flatten (s : Bytes) : (fileLines s).flatten = s := by
  induction s with
  | nil => rfl
  | cons c s ih =>
    rw [fileLines]
    split
    next hc => rw [List.flatten_cons, ih, hc, List.singleton_append]
    next =>
      cases hs : fileLines s with
      | nil => rw [← ih, hs, List.flatten_cons, List.flatten_nil, List.append_nil]
      | cons u us =>
        rw [hs] at ih
        rw [← ih]
        rfl

theorem fileLines_last (hu : u ≠ []) (h10 : 10 ∉ u) : fileLines u = [u] := by
  induction u with
  | nil => exact absurd rfl hu
  | cons c u ih =>
    obtain ⟨hc, hno⟩ := not_or.mp (mt List.mem_cons.mpr h10)
    rw [fileLines, if_neg (Ne.symm hc)]
    by_cases hnil : u = []
    · rw [hnil]
      rfl
    · rw [ih hnil hno]

theorem fileLines_line (h10 : 10 ∉ u) : fileLines (u ++ 10 :: rest) = (u ++ [10]) :: fileLines rest := by
  induction u with
  | nil => exact if_pos rfl
  | cons c u ih =>
    obtain ⟨hc, hno⟩ := not_or.mp (mt List.mem_cons.mpr h10)
    rw [List.cons_append, fileLines, if_neg (Ne.symm hc), ih hno]
    rfl

/-- The first line of a file, or the end of it: it stops at its line feed or with the file. -/
structure FirstLine (u rest : Bytes) : Prop where
  nonempty : u ≠ []
  inner : 10 ∉ u.dropLast
  ended : rest ≠ [] → u.getLast? = some 10

theorem exists_firstLine (hs : s ≠ []) : ∃ u rest, s = u ++ rest ∧ FirstLine u rest := by
  by_cases h10 : 10 ∈ s
  · obtain ⟨u, rest, rfl, hu⟩ := List.eq_append_cons_of_mem h10
    refine ⟨u ++ [10], rest, by simp, by simp, ?_, fun _ => List.getLast?_concat⟩
    rw [List.dropLast_concat]
    exact hu
  · exact ⟨s, [], (List.append_nil s).symm, hs, fun h => h10 (List.mem_of_mem_dropLast h), fun h => absurd rfl h⟩

namespace FirstLine

/-- Either the line has its line feed, or the file ends with it and has none. -/
theorem cases (h : FirstLine u rest) : (∃ v, u = v ++ [10] ∧ 10 ∉ v) ∨ rest = [] ∧ 10 ∉ u := by
  have hsplit := List.dropLast_append_getLast h.nonempty
  by_cases hlast : u.getLast h.nonempty = 10
  · rw [hlast] at hsplit
    exact .inl ⟨u.dropLast, hsplit.symm, h.inner⟩
  · refine .inr ⟨?_, fun h10 => ?_⟩
    · by_contra hrest
      have hended := h.ended hrest
      rw [List.getLast?_eq_some_getLast h.nonempty] at hended
      exact hlast (Option.some.inj hended)
    · rw [← hsplit, List.mem_append, List.mem_singleton] at h10
      exact h10.elim h.inner fun he => hlast he.symm

theorem length (h : FirstLine u rest) : lineLength (u ++ rest) = u.length := by
  obtain ⟨v, rfl, hv⟩ | ⟨rfl, hu⟩ := h.cases
  · rw [List.append_assoc, List.singleton_append, lineLength_append hv, List.length_append, List.length_singleton]
  · rw [List.append_nil, lineLength_last hu]

theorem lines (h : FirstLine u rest) : fileLines (u ++ rest) = u :: fileLines rest := by
  obtain ⟨v, rfl, hv⟩ | ⟨rfl, hu⟩ := h.cases
  · rw [List.append_assoc, List.singleton_append, fileLines_line hv]
  · rw [List.append_nil, fileLines_last h.nonempty hu]
    rfl

theorem behind (h : FirstLine (u ++ v) rest) (hv : v ≠ []) : FirstLine v rest := by
  refine ⟨hv, fun h10 => h.inner ?_, fun hrest => ?_⟩
  · rw [List.dropLast_append_of_ne_nil hv]
    exact List.mem_append_right u h10
  · have hended := h.ended hrest
    rwa [List.getLast?_append_of_ne_nil _ hv] at hended

end FirstLine

/-- One `fgets` takes a line that fits. -/
theorem fgets_fits (h : FirstLine u rest) (hlen : u.length ≤ 1038) :
    ∃ e', fgets ⟨u ++ rest, e⟩ 1039 = (some u, ⟨rest, e'⟩) := by
  have hgot : (u ++ rest).take (min (1039 - 1) u.length) = u := by
    rw [Nat.min_eq_right hlen, List.take_left]
  rw [fgets, h.length, hgot, if_neg h.nonempty, List.drop_left]
  exact ⟨_, rfl⟩

/-- Of a longer one it takes as much as its buffer holds. -/
theorem fgets_full (h : FirstLine (u ++ v) rest) (hlen : u.length = 1038) :
    ∃ e', fgets ⟨u ++ v ++ rest, e⟩ 1039 = (some u, ⟨v ++ rest, e'⟩) := by
  have hgot : (u ++ v ++ rest).take (min (1039 - 1) (u ++ v).length) = u := by
    rw [List.length_append, Nat.min_eq_left (by omega), List.append_assoc]
    exact List.take_left' hlen
  have hne : u ≠ [] := by
    rintro rfl
    exact absurd hlen (by decide)
  rw [fgets, h.length, hgot, if_neg hne, List.append_assoc, List.drop_left]
  exact ⟨_, rfl⟩

theorem fgets_nil : fgets ⟨[], e⟩ 1039 = (none, ⟨[], true⟩) := by
  simp [fgets]

theorem fgets_shrinks {got : Bytes} (h : (f.fgets 1039).1 = some got) :
    (f.fgets 1039).2.rest.length < f.rest.length := by
  unfold fgets at h ⊢
  dsimp only at h ⊢
  split at h
  next => cases h
  next hne =>
    have hpos := List.length_pos_of_ne_nil hne
    rw [List.length_take] at hpos
    rw [List.length_drop, List.length_take]
    omega

/-- More rounds than characters are enough. -/
theorem readLineWithLoop_fuel {fuel' : Nat} (hfuel : f.rest.length < fuel) (hfuel' : f.rest.length < fuel') :
    readLineWithLoop strip_eol fuel f = readLineWithLoop strip_eol fuel' f := by
  induction fuel generalizing f fuel' with
  | zero => exact absurd hfuel (Nat.not_lt_zero _)
  | succ fuel ih =>
    obtain ⟨fuel', rfl⟩ := Nat.exists_eq_add_of_lt (Nat.zero_lt_of_lt hfuel')
    rw [Nat.zero_add] at hfuel' ⊢
    rw [readLineWithLoop, readLineWithLoop]
    split
    next => rfl
    next got hgot =>
      have hless := fgets_shrinks hgot
      rw [ih (by omega) (by omega : _ < fuel')]

theorem readLineWith_none {f' : TextFile} (h : f.fgets 1039 = (none, f')) : readLineWith strip_eol f = ([], f') := by
  rw [readLineWith, readLineWithLoop, h]

/-- One round of `readLine`. -/
theorem readLineWith_some {f' : TextFile} (h : f.fgets 1039 = (some u, f')) (hu : ∀ c ∈ u, c ≠ 0) :
    readLineWith strip_eol f =
      if u.length < 1023 then (if strip_eol then stripEol u else u, f')
      else (u ++ (readLineWith strip_eol f').1, (readLineWith strip_eol f').2) := by
  have hless := fgets_shrinks (congrArg Prod.fst h)
  rw [h] at hless
  rw [readLineWith, readLineWithLoop, h]
  dsimp only
  rw [cstr_of_ne hu, readLineWithLoop_fuel hless (Nat.lt_succ_self _)]
  rfl

/-- The last part of a line that `fgets` reads, when it takes 1038 characters at a time. -/
def lastPart (u : Bytes) : Nat := (u.length - 1) % 1038 + 1

/-- The last part is so long that `readLine` takes the line for unfinished. -/
def Unfinished (u : Bytes) : Prop := 1023 ≤ lastPart u

instance (u : Bytes) : Decidable (Unfinished u) := inferInstanceAs (Decidable (_ ≤ _))

theorem lastPart_short (hne : u ≠ []) (hlen : u.length ≤ 1038) : lastPart u = u.length := by
  have hpos := List.length_pos_of_ne_nil hne
  rw [lastPart, Nat.mod_eq_of_lt (by omega)]
  omega

theorem lastPart_append (hv : v ≠ []) (hlen : u.length = 1038) : lastPart (u ++ v) = lastPart v := by
  have hpos := List.length_pos_of_ne_nil hv
  have hsub : (u ++ v).length - 1 = v.length - 1 + 1038 := by
    rw [List.length_append]
    omega
  rw [lastPart, hsub, Nat.add_mod_right, lastPart]

theorem unfinished_short (hne : u ≠ []) (hlen : u.length ≤ 1038) : Unfinished u ↔ 1023 ≤ u.length := by
  unfold Unfinished
  rw [lastPart_short hne hlen]

theorem unfinished_append (hv : v ≠ []) (hlen : u.length = 1038) : Unfinished (u ++ v) ↔ Unfinished v := by
  unfold Unfinished
  rw [lastPart_append hv hlen]

theorem lastPart_le (hne : u ≠ []) : lastPart u ≤ u.length := by
  have hpos := List.length_pos_of_ne_nil hne
  have hmod := Nat.mod_le (u.length - 1) 1038
  rw [lastPart]
  omega

/-- What a call makes of a line: of the line itself, or of the line and all that the next call returns. -/
theorem readLineWith_line (strip_eol e : Bool) (h : FirstLine u rest) (hu : ∀ c ∈ u, c ≠ 0) :
    ∃ e', readLineWith strip_eol ⟨u ++ rest, e⟩ =
      if Unfinished u then (u ++ (readLineWith strip_eol ⟨rest, e'⟩).1, (readLineWith strip_eol ⟨rest, e'⟩).2)
      else
        (if strip_eol then u.take (u.length - lastPart u) ++ stripEol (u.drop (u.length - lastPart u)) else u,
          ⟨rest, e'⟩) := by
  induction hn : u.length using Nat.strong_induction_on generalizing u e with
  | h n ih =>
    subst hn
    obtain hlen | hlen := Nat.lt_or_ge 1038 u.length
    · have hsplit : u.take 1038 ++ u.drop 1038 = u := List.take_append_drop 1038 u
      obtain ⟨a, b, rfl, ha⟩ : ∃ a b, u = a ++ b ∧ a.length = 1038 :=
        ⟨_, _, hsplit.symm, by rw [List.length_take]; omega⟩
      have hb : b ≠ [] := by
        rintro rfl
        rw [List.append_nil] at hlen
        omega
      obtain ⟨e₁, hgets⟩ := fgets_full (e := e) h ha
      obtain ⟨e', hrest⟩ := ih b.length (by rw [List.length_append]; omega) (e := e₁) (h.behind hb)
        (fun c hc => hu c (List.mem_append_right a hc)) rfl
      refine ⟨e', ?_⟩
      have hcut : a.length + b.length - lastPart b = a.length + (b.length - lastPart b) :=
        Nat.add_sub_assoc (lastPart_le hb) _
      rw [readLineWith_some hgets fun c hc => hu c (List.mem_append_left b hc), if_neg (by omega), hrest,
        lastPart_append hb ha, List.length_append, hcut]
      simp only [unfinished_append hb ha]
      split
      next => rw [List.append_assoc]
      next =>
        cases strip_eol with
        | false => rfl
        | true =>
          simp only [if_true]
          rw [List.take_length_add_append, List.drop_length_add_append, List.append_assoc]
    · obtain ⟨e', hgets⟩ := fgets_fits (e := e) h hlen
      refine ⟨e', ?_⟩
      rw [readLineWith_some hgets hu, lastPart_short h.nonempty hlen, Nat.sub_self, List.take_zero, List.drop_zero,
        List.nil_append]
      simp only [unfinished_short h.nonempty hlen]
      obtain hlt | hge := Nat.lt_or_ge u.length 1023
      · rw [if_pos hlt, if_neg (Nat.not_le.mpr hlt)]
      · rw [if_neg (Nat.not_lt.mpr hge), if_pos hge]

/-- The line as a call should return it. -/
def stripped (strip_eol : Bool) (u : Bytes) : Bytes := if strip_eol then stripEol u else u

/-- A line break of two characters, of which the last part has only one. -/
def Torn (u : Bytes) : Prop := lastPart u = 1 ∧ [13, 10] <:+ u

instance (u : Bytes) : Decidable (Torn u) := inferInstanceAs (Decidable (_ ∧ _))

theorem stripEol_begins (u : Bytes) : stripEol u <+: u := by
  have hdrop : ∀ (c : UInt8) (v : Bytes), (if v.getLast? = some c then v.dropLast else v) <+: v := by
    intro c v
    split
    next => exact List.dropLast_prefix v
    next => exact List.prefix_refl v
  exact (hdrop 13 _).trans (hdrop 10 u)

theorem stripEol_lf_or (u : Bytes) :
    stripEol (u ++ [10]) = if u.getLast? = some 13 then u.dropLast else u := by
  rw [stripEol, if_pos List.getLast?_concat, List.dropLast_concat]

theorem stripEol_cr (u : Bytes) : stripEol (u ++ [13]) = u := by
  have h10 : (u ++ [13]).getLast? ≠ some 10 := by
    rw [List.getLast?_concat]
    decide
  rw [stripEol, if_neg h10, if_pos List.getLast?_concat, List.dropLast_concat]

theorem stripEol_eq_self_iff : stripEol u = u ↔ u.getLast? ≠ some 10 ∧ u.getLast? ≠ some 13 := by
  refine ⟨fun h => ⟨fun h10 => ?_, fun h13 => ?_⟩, fun h => stripEol_none h.1 h.2⟩
  · obtain ⟨v, rfl⟩ := List.getLast?_eq_some_iff.mp h10
    have hlen := congrArg List.length h
    have hle : (stripEol (v ++ [10])).length ≤ v.length := by
      rw [stripEol_lf_or]
      split
      next => exact (List.dropLast_prefix v).length_le
      next => exact Nat.le_refl _
    rw [List.length_append, List.length_singleton] at hlen
    omega
  · obtain ⟨v, rfl⟩ := List.getLast?_eq_some_iff.mp h13
    rw [stripEol_cr] at h
    exact absurd (congrArg List.length h) (by simp)

theorem crlf_suffix_iff : [13, 10] <:+ u ++ [c] ↔ c = 10 ∧ u.getLast? = some 13 := by
  have hsplit : [13, 10] = ([13] ++ [10] : Bytes) := rfl
  rw [List.suffix_concat_iff, hsplit, ← List.singleton_suffix_iff_getLast?_eq_some]
  constructor
  · intro h
    obtain ⟨t, ht, hsuffix⟩ := h.resolve_left (by simp)
    obtain ⟨rfl, hc⟩ := List.append_inj' ht rfl
    exact ⟨(List.cons.inj hc).1.symm, hsuffix⟩
  · rintro ⟨rfl, h⟩
    exact .inr ⟨[13], rfl, h⟩

/-- Stripping the last part is stripping the line, unless it has the line feed alone. -/
theorem append_stripEol_iff (hv : v ≠ []) :
    u ++ stripEol v = stripEol (u ++ v) ↔ ¬(v.length = 1 ∧ [13, 10] <:+ u ++ v) := by
  obtain ⟨w, c, rfl⟩ : ∃ w c, v = w ++ [c] := ⟨_, _, (List.dropLast_concat_getLast hv).symm⟩
  rw [← List.append_assoc, crlf_suffix_iff, List.length_append, List.length_singleton]
  by_cases h10 : c = 10
  · subst h10
    rw [stripEol_lf_or, stripEol_lf_or]
    by_cases hw : w = []
    · subst hw
      rw [List.append_nil, if_neg (by simp), List.append_nil]
      by_cases h13 : u.getLast? = some 13
      · obtain ⟨t, rfl⟩ := List.getLast?_eq_some_iff.mp h13
        rw [if_pos h13, List.dropLast_concat]
        exact ⟨fun h => absurd (congrArg List.length h) (by simp), fun h => absurd ⟨rfl, rfl, h13⟩ h⟩
      · rw [if_neg h13]
        exact ⟨fun _ h => h13 h.2.2, fun _ => rfl⟩
    · have hlen : w.length + 1 ≠ 1 := fun h => hw (List.length_eq_zero_iff.mp (by omega))
      rw [List.getLast?_append_of_ne_nil _ hw, List.dropLast_append_of_ne_nil hw]
      refine ⟨fun _ h => hlen h.1, fun _ => ?_⟩
      split
      next => rfl
      next => rfl
  · by_cases h13 : c = 13
    · subst h13
      rw [stripEol_cr, stripEol_cr]
      exact ⟨fun _ h => h10 h.2.1, fun _ => rfl⟩
    · have hnone : ∀ x : Bytes, stripEol (x ++ [c]) = x ++ [c] := by
        intro x
        refine stripEol_none ?_ ?_
        · rw [List.getLast?_concat]
          exact fun h => h10 (Option.some.inj h)
        · rw [List.getLast?_concat]
          exact fun h => h13 (Option.some.inj h)
      rw [hnone, hnone, List.append_assoc]
      exact ⟨fun _ h => h10 h.2.1, fun _ => rfl⟩

/-- What the lines of a file have to be like for each call to return one. -/
def Readable (strip_eol : Bool) (us : List Bytes) : Prop :=
  if strip_eol then ∀ u ∈ us, (Unfinished u → u.getLast? ≠ some 10 ∧ u.getLast? ≠ some 13) ∧ ¬Torn u
  else ∀ u ∈ us.dropLast, ¬Unfinished u

instance (strip_eol : Bool) (us : List Bytes) : Decidable (Readable strip_eol us) :=
  inferInstanceAs (Decidable (ite _ _ _))

/-- What the first line has to be like, in front of the rest of the file. -/
def Right (strip_eol : Bool) (u rest : Bytes) : Prop :=
  if strip_eol then (Unfinished u → u.getLast? ≠ some 10 ∧ u.getLast? ≠ some 13) ∧ ¬Torn u
  else Unfinished u → rest = []

theorem fileLines_eq_nil_iff : fileLines s = [] ↔ s = [] := by
  refine ⟨fun h => ?_, fun h => by rw [h]; rfl⟩
  rw [← fileLines_flatten s, h]
  rfl

theorem readable_cons :
    Readable strip_eol (u :: fileLines rest) ↔ Right strip_eol u rest ∧ Readable strip_eol (fileLines rest) := by
  cases strip_eol with
  | true => exact List.forall_mem_cons
  | false =>
    show (∀ x ∈ (u :: fileLines rest).dropLast, ¬Unfinished x) ↔
      (Unfinished u → rest = []) ∧ ∀ x ∈ (fileLines rest).dropLast, ¬Unfinished x
    by_cases hrest : rest = []
    · rw [hrest]
      exact ⟨fun h => ⟨fun _ => rfl, fun x hx => absurd hx List.not_mem_nil⟩, fun _ x hx => absurd hx List.not_mem_nil⟩
    · rw [List.dropLast_cons_of_ne_nil (mt fileLines_eq_nil_iff.mp hrest), List.forall_mem_cons]
      exact and_congr_left fun _ => ⟨fun h hu => absurd hu h, fun h hu => hrest (h hu)⟩

theorem readLineWith_end : readLineWith strip_eol ⟨[], e⟩ = ([], ⟨[], true⟩) := readLineWith_none fgets_nil

theorem readLineWith_nonempty (hs : s ≠ []) (hzero : ∀ c ∈ s, c ≠ 0) : (readLineWith false ⟨s, e⟩).1 ≠ [] := by
  obtain ⟨u, rest, rfl, hu⟩ := exists_firstLine hs
  obtain ⟨e', hrun⟩ := readLineWith_line false e hu fun c hc => hzero c (List.mem_append_left rest hc)
  rw [hrun]
  split
  next => exact List.append_ne_nil_of_left_ne_nil hu.nonempty _
  next => exact hu.nonempty

theorem right_unfinished (hu : Unfinished u) :
    Right true u rest ↔ u.getLast? ≠ some 10 ∧ u.getLast? ≠ some 13 := by
  have hlong : lastPart u ≠ 1 := by
    intro h1
    rw [Unfinished, h1] at hu
    exact absurd hu (by decide)
  exact ⟨fun hr => hr.1 hu, fun hr => ⟨fun _ => hr, fun ht => hlong ht.1⟩⟩

/-- An unfinished line is returned as it should be only if nothing follows it and there is nothing to strip. -/
theorem readLineWith_unfinished (strip_eol e : Bool) (h : FirstLine u rest) (hu : Unfinished u)
    (hrest : ∀ c ∈ rest, c ≠ 0) :
    (u ++ (readLineWith strip_eol ⟨rest, e⟩).1 = stripped strip_eol u ↔ Right strip_eol u rest) ∧
      (Right strip_eol u rest → (readLineWith strip_eol ⟨rest, e⟩).2.rest = rest) := by
  cases strip_eol with
  | false =>
    show (u ++ _ = u ↔ (Unfinished u → rest = [])) ∧ ((Unfinished u → rest = []) → _)
    refine ⟨⟨fun he _ => ?_, fun hnil => ?_⟩, fun hnil => ?_⟩
    · by_contra hne
      exact readLineWith_nonempty hne hrest (List.append_right_eq_self.mp he)
    · rw [hnil hu, readLineWith_end, List.append_nil]
    · rw [hnil hu, readLineWith_end]
  | true =>
    have hnil : u.getLast? ≠ some 10 → rest = [] := fun h10 => not_not.mp (mt h.ended h10)
    rw [right_unfinished hu]
    show (u ++ _ = stripEol u ↔ _) ∧ _
    refine ⟨⟨fun he => ?_, fun hr => ?_⟩, fun hr => ?_⟩
    · have hlen := congrArg List.length he
      have hle := (stripEol_begins u).length_le
      rw [List.length_append] at hlen
      have hmore : (readLineWith true ⟨rest, e⟩).1 = [] := List.length_eq_zero_iff.mp (by omega)
      rw [hmore, List.append_nil] at he
      exact stripEol_eq_self_iff.mp he.symm
    · rw [hnil hr.1, readLineWith_end, List.append_nil, stripEol_eq_self_iff.mpr hr]
    · rw [hnil hr.1, readLineWith_end]

/-- Of a finished line the last part is stripped. -/
theorem stripped_finished (strip_eol : Bool) (hne : u ≠ []) (hu : ¬Unfinished u) :
    (if strip_eol then u.take (u.length - lastPart u) ++ stripEol (u.drop (u.length - lastPart u)) else u) =
      stripped strip_eol u ↔ Right strip_eol u rest := by
  cases strip_eol with
  | false => exact ⟨fun _ h => absurd h hu, fun _ => rfl⟩
  | true =>
    have hright : Right true u rest ↔ ¬Torn u := ⟨fun hr => hr.2, fun hr => ⟨fun h => absurd h hu, hr⟩⟩
    have hle := lastPart_le hne
    have hpart : (u.drop (u.length - lastPart u)).length = lastPart u := by
      rw [List.length_drop]
      omega
    have hlast : u.drop (u.length - lastPart u) ≠ [] := by
      intro hnil
      rw [hnil] at hpart
      exact Nat.succ_ne_zero _ hpart.symm
    have happend := append_stripEol_iff (u := u.take (u.length - lastPart u)) hlast
    rw [List.take_append_drop, hpart] at happend
    rw [hright]
    exact happend

/-- A call returns the first line, and leaves the rest, exactly if the line is right. -/
theorem readLineWith_first (strip_eol e : Bool) (h : FirstLine u rest) (hzero : ∀ c ∈ u ++ rest, c ≠ 0) :
    ((readLineWith strip_eol ⟨u ++ rest, e⟩).1 = stripped strip_eol u ↔ Right strip_eol u rest) ∧
      (Right strip_eol u rest → (readLineWith strip_eol ⟨u ++ rest, e⟩).2.rest = rest) := by
  obtain ⟨e', hrun⟩ := readLineWith_line strip_eol e h fun c hc => hzero c (List.mem_append_left rest hc)
  rw [hrun]
  by_cases hu : Unfinished u
  · rw [if_pos hu]
    exact readLineWith_unfinished strip_eol e' h hu fun c hc => hzero c (List.mem_append_right u hc)
  · rw [if_neg hu]
    exact ⟨stripped_finished strip_eol h.nonempty hu, fun _ => rfl⟩

/-- The calls return the lines one by one exactly if the lines are as `Readable` says. -/
theorem readLines_iff (strip_eol : Bool) (content : Bytes) (e : Bool) (hzero : ∀ c ∈ content, c ≠ 0) :
    readLines strip_eol (fileLines content).length ⟨content, e⟩ = (fileLines content).map (stripped strip_eol) ↔
      Readable strip_eol (fileLines content) := by
  induction hn : content.length using Nat.strong_induction_on generalizing content e with
  | h n ih =>
    subst hn
    by_cases hnil : content = []
    · rw [hnil]
      refine ⟨fun _ => ?_, fun _ => rfl⟩
      cases strip_eol with
      | true => exact fun u hu => absurd hu List.not_mem_nil
      | false => exact fun u hu => absurd hu List.not_mem_nil
    · obtain ⟨u, rest, rfl, hfirst⟩ := exists_firstLine hnil
      obtain ⟨hhead, hbehind⟩ := readLineWith_first strip_eol e hfirst hzero
      have hless : rest.length < (u ++ rest).length := by
        have hpos := List.length_pos_of_ne_nil hfirst.nonempty
        rw [List.length_append]
        omega
      have hrest : ∀ c ∈ rest, c ≠ 0 := fun c hc => hzero c (List.mem_append_right u hc)
      have htail := ih rest.length hless rest (readLineWith strip_eol ⟨u ++ rest, e⟩).2.eof hrest rfl
      rw [hfirst.lines, readable_cons, List.length_cons, List.map_cons, readLines, List.cons.injEq, hhead]
      refine and_congr_right fun hright => ?_
      rw [← htail]
      have heq : (readLineWith strip_eol ⟨u ++ rest, e⟩).2 = ⟨rest, (readLineWith strip_eol ⟨u ++ rest, e⟩).2.eof⟩ :=
        congrArg (fun r => TextFile.mk r _) (hbehind hright)
      rw [← heq]

theorem readLines_iff_short :
    readLines true 2 ⟨bytes "ab\r\ncd", false⟩ = [bytes "ab", bytes "cd"] ∧
      readLines false 2 ⟨bytes "ab\r\ncd", false⟩ = [bytes "ab\r\n", bytes "cd"] :=
  ⟨(readLines_iff true (bytes "ab\r\ncd") false (by decide)).mpr (by decide),
    (readLines_iff false (bytes "ab\r\ncd") false (by decide)).mpr (by decide)⟩

/-- A line of 1023 characters is returned together with the one behind it. -/
theorem not_readLines : ¬∀ (strip_eol : Bool) (content : Bytes) (e : Bool), (∀ c ∈ content, c ≠ 0) →
    readLines strip_eol (fileLines content).length ⟨content, e⟩ = (fileLines content).map (stripped strip_eol) := by
  intro hall
  obtain ⟨u, hu, hlen⟩ : ∃ u : Bytes, (∀ c ∈ u, c = 97) ∧ u.length = 1022 :=
    ⟨List.replicate 1022 97, fun c hc => List.eq_of_mem_replicate hc, List.length_replicate⟩
  have hfirst : FirstLine (u ++ [10]) [98] := by
    refine ⟨by simp, fun h10 => ?_, fun _ => List.getLast?_concat⟩
    rw [List.dropLast_concat] at h10
    exact absurd (hu 10 h10) (by decide)
  have hzero : ∀ c ∈ u ++ [10] ++ [98], c ≠ 0 := by
    intro c hc
    rw [List.append_assoc] at hc
    obtain hc | hc := List.mem_append.mp hc
    · rw [hu c hc]
      decide
    · exact (by decide : ∀ c ∈ ([10, 98] : Bytes), c ≠ 0) c hc
  have hlines := hall false _ false hzero
  rw [hfirst.lines, List.length_cons, List.map_cons, readLines, List.cons.injEq] at hlines
  have hright := (readLineWith_first false false hfirst hzero).1.mp hlines.1
  have hlast : lastPart (u ++ [10]) = 1023 := by
    rw [lastPart, List.length_append, hlen]
    rfl
  exact absurd (hright (hlast.ge)) (by decide)

end TextFile

end Srl
