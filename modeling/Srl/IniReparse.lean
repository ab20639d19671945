import Srl.IniValues
import Srl.KeyedMerge

namespace Srl

open Bytes KeyedList Dictionary

namespace IniParser

/-- What the lines of a file make of the contents. -/
def load (A : Contents) (Ls : List Line) : Contents :=
  (Ls.foldl step (A.enter (bytes "default"), Hasher.hash (bytes "default"))).1

/-- The meanings of all lines, if none goes wrong. -/
def meanings (content : Bytes) : Option (List Line) := (TextFile.lines content).mapM meaning

/-- The sections and properties of the file alone. -/
def fileAlone (content : Bytes) : Option Contents := (meanings content).map (load Contents.empty)

/-- Every property is one of `Q`. -/
def Properties.Within (P Q : Properties) : Prop := ∀ h x, P h = some x → ∃ y, Q h = some y ∧ x.1 = y.1

/-- Every section is one of `F`, with properties of `F` only. -/
def Contents.Within (A F : Contents) : Prop :=
  ∀ h x, A h = some x → ∃ y, F h = some y ∧ x.1 = y.1 ∧ x.2.Within y.2

def Properties.over (P Q : Properties) : Properties := merge (fun _ v => v) P Q

def Contents.over (A F : Contents) : Contents := merge Properties.over A F

variable {p q : IniParser} {m m' : List (Bytes × Ptr)} {c c' : Ptr → List (Bytes × Bytes)} {s : Ptr} {A B F : Contents}
  {P Q : Properties} {x : Contents × Int} {k v content filename : Bytes} {f : TextFile} {Ls : List Line} {fuel n : Nat}
  {files : Bytes → Option Bytes}

theorem Properties.over_eq_iff : P.over Q = Q ↔ P.Within Q := by
  rw [Properties.over, merge_eq_right_iff]
  simp only [and_true, Properties.Within]

theorem Contents.over_eq_iff : A.over F = F ↔ A.Within F := by
  rw [Contents.over, merge_eq_right_iff]
  simp only [Properties.over_eq_iff, Contents.Within]

theorem Properties.over_put : (P.over Q).put k v = P.over (Q.put k v) := by
  funext h
  by_cases hh : h = Hasher.hash k
  · subst hh
    cases hP : P (Hasher.hash k) with
    | none =>
      rw [Properties.over, Properties.over, merge_none_left hP, Properties.put, Properties.put, Function.update_self,
        Function.update_self, merge_none_left hP]
    | some x =>
      have hput : Q.put k v (Hasher.hash k) = some (((Q (Hasher.hash k)).map Prod.fst).getD k, v) :=
        Function.update_self ..
      have hright : P.over (Q.put k v) (Hasher.hash k) = _ := merge_some hP hput
      rw [hright, Properties.put, Function.update_self, Properties.over]
      cases hQ : Q (Hasher.hash k) with
      | none => rw [merge_none_right hQ, hP]; rfl
      | some y => rw [merge_some hP hQ]; rfl
  · have hout : ∀ R : Properties, R.put k v h = R h := fun R => Function.update_of_ne hh _ _
    rw [hout, Properties.over, Properties.over, merge, merge, hout]

theorem Contents.over_enter : (A.over F).enter k = A.over (F.enter k) := by
  funext h
  by_cases hh : h = Hasher.hash k
  · subst hh
    have hself : ∀ C : Contents, C.enter k (Hasher.hash k) =
        some ((C (Hasher.hash k)).getD (k, fun _ => none)) :=
      fun C => Function.update_self ..
    rw [hself]
    cases hA : A (Hasher.hash k) with
    | none => rw [Contents.over, Contents.over, merge_none_left hA, merge_none_left hA, hself]
    | some x =>
      rw [Contents.over, Contents.over, merge_some hA (hself F)]
      cases hF : F (Hasher.hash k) with
      | none =>
        have hempty : x.2.over (fun _ => none) = x.2 := merge_empty
        rw [merge_none_right hF, hA, Option.getD_some, Option.getD_none, hempty]
      | some y => rw [merge_some hA hF]; rfl
  · have hout : ∀ C : Contents, C.enter k h = C h := fun C => Function.update_of_ne hh _ _
    rw [hout, Contents.over, Contents.over, merge, merge, hout]

theorem Contents.over_put {cur : Int} (hF : (F cur).isSome) : (A.over F).put cur k v = A.over (F.put cur k v) := by
  obtain ⟨y, hy⟩ := Option.isSome_iff_exists.mp hF
  funext h
  by_cases hh : h = cur
  · subst hh
    have hput : F.put h k v h = some (y.1, y.2.put k v) := by
      rw [Contents.put, Function.update_self, hy]
      rfl
    rw [Contents.put, Function.update_self]
    cases hA : A h with
    | none => rw [Contents.over, Contents.over, merge_none_left hA, merge_none_left hA, hput, hy]; rfl
    | some x =>
      rw [Contents.over, Contents.over, merge_some hA hy, merge_some hA hput, Option.map_some, Properties.over_put]
  · have hout : ∀ C : Contents, C.put cur k v h = C h := fun C => Function.update_of_ne hh _ _
    rw [hout, Contents.over, Contents.over, merge, merge, hout]

theorem foldl_over {cur : Int} (hF : (F cur).isSome) :
    (Ls.foldl step (A.over F, cur)).1 = A.over (Ls.foldl step (F, cur)).1 := by
  induction Ls generalizing F cur with
  | nil => rfl
  | cons L Ls ih =>
    rw [List.foldl_cons, List.foldl_cons]
    cases L with
    | header name =>
      rw [step, step]
      dsimp only
      rw [Contents.over_enter]
      refine ih ?_
      rw [Contents.enter, Function.update_self]
      rfl
    | property field value =>
      rw [step, step]
      dsimp only
      rw [Contents.over_put hF]
      refine ih ?_
      rw [Contents.put, Function.update_self, Option.isSome_map]
      exact hF
    | other => exact ih hF

theorem unquote_eq_none_iff {t : Bytes} : unquote t = none ↔ t = [34] ∨ t = [39] := by
  unfold unquote
  constructor
  · intro h
    split at h
    next hq =>
      split at h
      next => cases h
      next hlen =>
        cases t with
        | nil => exact hq.elim (fun h => absurd h (by decide)) fun h => absurd h (by decide)
        | cons c t =>
          obtain rfl : t = [] := List.eq_nil_of_length_eq_zero (by rw [List.length_cons] at hlen; omega)
          exact hq.imp (fun h => congrArg (fun c => [c]) h) fun h => congrArg (fun c => [c]) h
    next => cases h
  · rintro (rfl | rfl) <;> rfl

theorem betweenChars_header {line : Bytes} (h : line.charAt 0 = 91) : line.betweenChars 91 93 = none ↔ line = [91] := by
  cases line with
  | nil => exact absurd h (by decide)
  | cons b t =>
    obtain rfl : b = 91 := h
    have hfind : Bytes.find (91 :: t) 91 0 = some 0 := @find_eq (91 :: t) [] t 91 0 rfl (by decide) fun x hx =>
      absurd hx List.not_mem_nil
    rw [betweenChars, hfind]
    dsimp only
    cases hstop : Bytes.find (91 :: t) 93 (0 + 1) with
    | some i =>
      have hle := (find_bounds (by decide) hstop).1
      dsimp only
      rw [if_pos (show 0 + 1 + 1 ≤ i + 1 by omega)]
      refine ⟨fun he => absurd he (Option.some_ne_none _), ?_⟩
      rintro he
      cases he
      have hnone : Bytes.find [91] 93 (0 + 1) = none := by decide
      rw [hnone] at hstop
      cases hstop
    | none =>
      cases t with
      | nil => exact ⟨fun _ => rfl, fun _ => rfl⟩
      | cons b t =>
        rw [if_pos (by simp)]
        refine ⟨fun he => absurd he (Option.some_ne_none _), fun he => ?_⟩
        cases he

/-- A line goes wrong if it is a bracket, or if its value is a quote. -/
theorem meaning_eq_none_iff {line : Bytes} : meaning line = none ↔ line = [91] ∨
    (line.charAt 0 ≠ 91 ∧ line.charAt 0 ≠ 35 ∧ line.charAt 0 ≠ 59 ∧ 0 < line.countChar 61 ∧
      ((line.«section» 61 1).trim = [34] ∨ (line.«section» 61 1).trim = [39])) := by
  unfold meaning
  split
  next h91 =>
    rw [Option.map_eq_none_iff, betweenChars_header h91]
    exact ⟨.inl, fun h => h.elim id fun h => absurd h91 h.1⟩
  next h91 =>
    have hne : line ≠ [91] := fun he => h91 (by rw [he]; rfl)
    split
    next hcomment =>
      refine ⟨fun h => absurd h (Option.some_ne_none _), fun h => h.elim (fun he => absurd he hne) fun h => ?_⟩
      exact hcomment.elim (fun h35 => absurd h35 h.2.1) fun h59 => absurd h59 h.2.2.1
    next hcomment =>
      split
      next hcount =>
        rw [Option.map_eq_none_iff, unquote_eq_none_iff]
        refine ⟨fun h => .inr ⟨h91, fun h35 => hcomment (.inl h35), fun h59 => hcomment (.inr h59), hcount,
          h⟩, fun h => ?_⟩
        exact h.elim (fun he => absurd he hne) fun h => h.2.2.2.2
      next hcount =>
        refine ⟨fun h => absurd h (Option.some_ne_none _), fun h => h.elim (fun he => absurd he hne) fun h => ?_⟩
        exact absurd h.2.2.2.1 hcount

/-- What was held before is left over, with the values of the file where both have a property. -/
theorem load_over : load A Ls = A.over (load Contents.empty Ls) := by
  have hempty : A.over Contents.empty = A := merge_empty
  rw [load, load, ← foldl_over, ← Contents.over_enter, hempty]
  rw [Contents.enter, Function.update_self]
  rfl

/-- A parser has one contents. -/
theorem Holds.unique (hA : p.Holds A) (hB : p.Holds B) : A = B := by
  obtain ⟨m, c, hs, rfl⟩ := hA
  obtain ⟨m', c', hs', rfl⟩ := hB
  obtain rfl := hs.represents.unique hs'.represents
  funext h
  rw [contents, contents]
  cases hy : entry Hasher.hash m h with
  | none => rfl
  | some y =>
    obtain ⟨sec, hsec, -, hd⟩ := hs.live y (entry_some hy).1
    obtain ⟨sec', hsec', -, hd'⟩ := hs'.live y (entry_some hy).1
    obtain rfl := Option.some.inj (hsec.symm.trans hsec')
    rw [Option.map_some, Option.map_some, hd.unique hd']

/-- The loop takes the lines one after the other. -/
theorem reparseLoop_spec (hs : HoldsAt p s x) (hfuel : f.weight < fuel) (hn : f.weight ≤ n) :
    ((TextFile.linesLoop n f).mapM meaning = none → reparseLoop fuel p s f = none) ∧
      ∀ Ls, (TextFile.linesLoop n f).mapM meaning = some Ls →
        ∃ p', reparseLoop fuel p s f = some p' ∧ p'.Holds (Ls.foldl step x).1 := by
  induction fuel generalizing p s x f n with
  | zero => exact absurd hfuel (Nat.not_lt_zero _)
  | succ fuel ih =>
    rw [reparseLoop]
    cases heof : f.eof with
    | true =>
      rw [TextFile.linesLoop_eof heof, if_pos rfl]
      refine ⟨fun h => (by cases h), fun Ls h => ?_⟩
      cases h
      obtain ⟨m, c, n, hsec, -, rfl⟩ := hs
      exact ⟨p, rfl, m, c, hsec, rfl⟩
    | false =>
      have hless := TextFile.readLine_weight heof
      obtain ⟨n, rfl⟩ := Nat.exists_eq_add_of_lt (Nat.lt_of_lt_of_le (Nat.zero_lt_of_lt hless) hn)
      rw [Nat.zero_add, TextFile.linesLoop, if_neg (by rw [heof]; exact Bool.false_ne_true),
        if_neg Bool.false_ne_true, List.mapM_cons]
      obtain ⟨hnone, hsome⟩ := parseLine_spec hs f.readLine.1
      cases hline : meaning f.readLine.1 with
      | none =>
        rw [hnone hline]
        exact ⟨fun _ => rfl, fun Ls h => by cases h⟩
      | some L =>
        obtain ⟨p', s', hrun, hs', -⟩ := hsome L hline
        obtain ⟨ihnone, ihsome⟩ := @ih p' s' (step x L) f.readLine.2 n hs' (by omega) (by omega)
        rw [hrun]
        dsimp only [Option.bind_eq_bind, Option.bind_some]
        cases hrest : (TextFile.linesLoop n f.readLine.2).mapM meaning with
        | none => exact ⟨fun _ => ihnone hrest, fun Ls h => by cases h⟩
        | some Ls =>
          refine ⟨fun h => (by cases h), fun Ls' h => ?_⟩
          cases h
          exact ihsome Ls hrest

theorem reparse_spec (hp : p.Holds A) (hf : files p.filename = some content) :
    (meanings content = none → p.reparse files = none) ∧
      ∀ Ls, meanings content = some Ls → ∃ p', p.reparse files = some p' ∧ p'.Holds (load A Ls) := by
  obtain ⟨m, c, hs, rfl⟩ := hp
  obtain ⟨s, p', m', c', n, hrun, hs', hmem, hhash, hcontents⟩ := getSection_spec hs (bytes "default")
  obtain ⟨sections, hassign, hsections⟩ := assign_spec hs'.represents (bytes "default") s
  rw [assign_eq_self hs'.distinct hmem hhash.symm] at hsections
  have hat : HoldsAt { p' with sections } s ((contents m c).enter (bytes "default"), Hasher.hash (bytes "default")) :=
    ⟨m', c', n, ⟨hsections, hs'.live, hs'.apart, hs'.old⟩, hmem, by rw [hcontents, hhash]⟩
  have hreparse : p.reparse files = reparseLoop (content.length + 2) { p' with sections } s ⟨content, false⟩ := by
    rw [reparse, hf]
    dsimp only
    rw [hrun]
    dsimp only [Option.bind_eq_bind, Option.bind_some]
    rw [hassign]
    rfl
  rw [hreparse]
  exact @reparseLoop_spec _ _ _ ⟨content, false⟩ _ _ hat (Nat.lt_succ_self _) (Nat.le_refl _)

theorem parse_self (p : IniParser) : p.parse files p.filename = p.reparse files := rfl

theorem parse_spec (hp : p.Holds A) (hf : files filename = some content) :
    (meanings content = none → p.parse files filename = none) ∧
      ∀ Ls, meanings content = some Ls → ∃ p', p.parse files filename = some p' ∧ p'.Holds (load A Ls) := by
  obtain ⟨m, c, hs, rfl⟩ := hp
  exact @reparse_spec { p with filename } _ _ _ ⟨m, c, ⟨hs.represents, hs.live, hs.apart, hs.old⟩, rfl⟩ hf

theorem deleteLoop_spec {t : SearchTree.BinTree Color} {xs ys : List Ptr} (hS : Shape p.sections t (xs ++ ys))
    (hlive : ∀ y ∈ p.sections.contents ys, (p.heap y.2).isSome) (hapart : ((p.sections.contents ys).map Prod.snd).Nodup)
    (hfuel : ys.length < fuel) :
    ∃ p', deleteLoop fuel p (ys.head?.getD NULL) = some p' ∧ p'.sections = p.sections := by
  induction ys generalizing p xs fuel with
  | nil =>
    obtain ⟨fuel, rfl⟩ := Nat.exists_eq_add_of_lt hfuel
    exact ⟨p, rfl, rfl⟩
  | cons a ys ih =>
    obtain ⟨fuel, rfl⟩ := Nat.exists_eq_add_of_lt hfuel
    obtain ⟨e, he, hnext, hnull⟩ := hS.entry_next
    rw [contents_cons he, List.forall_mem_cons] at hlive
    rw [contents_cons he, List.map_cons, List.nodup_cons] at hapart
    obtain ⟨sec, hsec⟩ := Option.isSome_iff_exists.mp hlive.1
    let p₁ : IniParser := { p with heap := Function.update p.heap e.value none }
    have hlive₁ : ∀ y ∈ p₁.sections.contents ys, (p₁.heap y.2).isSome := by
      intro y hy
      have hne : y.2 ≠ e.value := fun hv => hapart.1 (List.mem_map.mpr ⟨y, hy, hv⟩)
      show (Function.update p.heap e.value none y.2).isSome
      rw [Function.update_of_ne hne]
      exact hlive.2 y hy
    obtain ⟨p', hrun, hsame⟩ := @ih p₁ (ys.length + 1 + fuel) (xs ++ [a]) (by simpa using hS) hlive₁ hapart.2 (by omega)
    refine ⟨p', ?_, hsame⟩
    rw [List.head?_cons, Option.getD_some, deleteLoop, if_neg hnull, he]
    dsimp only [Option.bind_eq_bind, Option.bind_some]
    rw [hsec, Option.bind_some, hnext]
    exact hrun

theorem clear_spec (hp : p.Holds A) : ∃ p', p.clear = some p' ∧ p'.Holds Contents.empty := by
  obtain ⟨m, c, hs, -⟩ := hp
  obtain ⟨t, order, hS, rfl⟩ := id hs.represents
  obtain ⟨p', hdelete, hsame⟩ := @deleteLoop_spec p _ t [] order hS (fun y hy => by
    obtain ⟨sec, hsec, -⟩ := hs.live y hy
    rw [hsec]
    rfl) hs.apart hS.length_lt
  obtain ⟨sections, hclear, hsections⟩ := Dictionary.clear_spec hs.represents
  refine ⟨{ p' with sections }, ?_, [], fun _ => [], ⟨hsections, fun _ h => absurd h List.not_mem_nil, List.nodup_nil,
    fun _ h => absurd h List.not_mem_nil⟩, rfl⟩
  rw [clear, hS.begin_eq, hdelete]
  dsimp only [Option.bind_eq_bind, Option.bind_some]
  rw [hsame, hclear]
  rfl

/-- With the call of `clear` that its comment promises, `parse` forgets what was held. -/
theorem parse_clear (hp : p.Holds A) (hf : files filename = some content) (hLs : meanings content = some Ls) :
    ∃ p' p'', p.clear = some p' ∧ p'.parse files filename = some p'' ∧ p''.Holds (load Contents.empty Ls) := by
  obtain ⟨p', hclear, hp'⟩ := clear_spec hp
  obtain ⟨p'', hparse, hp''⟩ := (parse_spec hp' hf).2 Ls hLs
  exact ⟨p', p'', hclear, hparse, hp''⟩

/-- Two parsers hold the contents of the file alone after they parsed it exactly if no line of it goes
wrong and they held nothing else before. -/
theorem parse_forgets_iff (hp : p.Holds A) (hq : q.Holds B) (hf : files filename = some content) :
    (∃ F p' q', fileAlone content = some F ∧ p.parse files filename = some p' ∧ q.parse files filename = some q' ∧
      p'.Holds F ∧ q'.Holds F) ↔ ∃ F, fileAlone content = some F ∧ A.Within F ∧ B.Within F := by
  have hone : ∀ {p : IniParser} {A : Contents} {Ls : List Line}, p.Holds A → meanings content = some Ls →
      ∃ p', p.parse files filename = some p' ∧
        (p'.Holds (load Contents.empty Ls) ↔ A.Within (load Contents.empty Ls)) := by
    intro p A Ls hp hLs
    obtain ⟨p', hrun, hp'⟩ := (parse_spec hp hf).2 Ls hLs
    refine ⟨p', hrun, ?_⟩
    rw [← Contents.over_eq_iff, ← load_over]
    exact ⟨fun h => hp'.unique h, fun h => h ▸ hp'⟩
  rw [fileAlone]
  cases hLs : meanings content with
  | none =>
    refine ⟨fun h => ?_, fun h => ?_⟩
    · obtain ⟨F, p', q', hF, -⟩ := h
      cases hF
    · obtain ⟨F, hF, -⟩ := h
      cases hF
  | some Ls =>
    obtain ⟨p', hrunp, hpiff⟩ := hone hp hLs
    obtain ⟨q', hrunq, hqiff⟩ := hone hq hLs
    refine ⟨fun h => ?_, fun h => ?_⟩
    · obtain ⟨F, p₁, q₁, hF, hp₁, hq₁, hpF, hqF⟩ := h
      cases hF
      cases hrunp.symm.trans hp₁
      cases hrunq.symm.trans hq₁
      exact ⟨_, rfl, hpiff.mp hpF, hqiff.mp hqF⟩
    · obtain ⟨F, hF, hA, hB⟩ := h
      cases hF
      exact ⟨_, p', q', rfl, hrunp, hrunq, hpiff.mpr hA, hqiff.mpr hB⟩

theorem holds_fresh : fresh.Holds Contents.empty := ⟨[], fun _ => [], sections_fresh, rfl⟩

theorem parse_forgets_iff_fresh : ∃ F p', fileAlone (bytes "[a]\nb=c\n") = some F ∧
    fresh.parse (fun _ => some (bytes "[a]\nb=c\n")) [] = some p' ∧ p'.Holds F := by
  have hwithin : ∀ F, Contents.empty.Within F := fun F h x hx => absurd hx.symm (Option.some_ne_none x)
  have hmeanings : (meanings (bytes "[a]\nb=c\n")).isSome := by decide
  obtain ⟨Ls, hLs⟩ := Option.isSome_iff_exists.mp hmeanings
  have hfile : fileAlone (bytes "[a]\nb=c\n") = some (load Contents.empty Ls) := by rw [fileAlone, hLs]; rfl
  obtain ⟨F, p', q', hF, hp', -, hpF, -⟩ := (@parse_forgets_iff fresh fresh _ _ _ []
    (fun _ => some (bytes "[a]\nb=c\n")) holds_fresh
    holds_fresh rfl).mpr ⟨_, hfile, hwithin _, hwithin _⟩
  exact ⟨F, p', hF, hp', hpF⟩

/-- A property that a getter stored as its default stays. -/
theorem not_parse_forgets : ¬∀ (p q : IniParser) (A B : Contents) (files : Bytes → Option Bytes)
    (filename content : Bytes),
    p.Holds A → q.Holds B → files filename = some content →
    ∃ F p' q', fileAlone content = some F ∧ p.parse files filename = some p' ∧ q.parse files filename = some q' ∧
      p'.Holds F ∧ q'.Holds F := by
  intro h
  obtain ⟨s, p, m, c, n, -, hs, hmem, hn, hcontents⟩ := getSection_spec sections_fresh (bytes "default")
  have hsec : contents m c (Hasher.hash n) = some (bytes "default", fun _ => none) := by
    rw [hcontents, hn]
    rfl
  obtain ⟨p', -, m', c', n', hs', -, hx⟩ := @getString_default p s _ (bytes "a") (fun _ => none) _
    ⟨m, c, n, hs, hmem, rfl⟩ hsec rfl
    (bytes "b")
  have hmeanings : meanings [] = some [.other] := rfl
  have hheld := congrArg Prod.fst hx
  obtain ⟨F, p₁, -, hF, hp₁, -, hpF, -⟩ := h p' fresh _ _ (fun _ => some []) [] [] ⟨m', c', hs', rfl⟩ holds_fresh rfl
  obtain ⟨p₂, hp₂, hload⟩ := (@parse_spec p' _ [] [] (fun _ => some []) ⟨m', c', hs', rfl⟩ rfl).2 _ hmeanings
  cases hp₁.symm.trans hp₂
  rw [fileAlone, hmeanings] at hF
  obtain rfl := Option.some.inj hF
  have hwithin := Contents.over_eq_iff.mp (load_over.symm.trans (hload.unique hpF))
  have hthere : contents m' c' (Hasher.hash (bytes "default")) =
      some (bytes "default", Properties.put (fun _ => none) (bytes "a") (bytes "b")) := by
    have hput : contents m' c' = (contents m c).put (Hasher.hash n) (bytes "a") (bytes "b") := hheld.symm
    rw [← hn, hput, Contents.put, Function.update_self, hsec]
    rfl
  have hfile : load Contents.empty [.other] (Hasher.hash (bytes "default")) =
      some (bytes "default", fun _ => none) := by
    show Contents.empty.enter (bytes "default") (Hasher.hash (bytes "default")) = _
    rw [Contents.enter, Function.update_self]
    rfl
  obtain ⟨y, hy, -, hprops⟩ := hwithin _ _ hthere
  cases hfile.symm.trans hy
  have hdefault : Properties.put (fun _ => none) (bytes "a") (bytes "b") (Hasher.hash (bytes "a")) =
      some (bytes "a", bytes "b") := by
    rw [Properties.put, Function.update_self]
    rfl
  obtain ⟨z, hz, -⟩ := hprops (Hasher.hash (bytes "a")) _ hdefault
  exact Option.some_ne_none z hz.symm

end IniParser

end Srl
