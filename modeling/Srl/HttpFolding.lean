import Srl.HttpHeaders

namespace Srl

open Bytes KeyedList Dictionary

namespace HttpHeaders

variable {m : List (Bytes × Bytes)} {l k x v : Bytes} {c : UInt8} {h f : Header} {us vs hs : List Header}

/-- The text behind a colon is shorter than the line, unless the line is blank. -/
theorem length_colonText_lt (h : trim l ≠ []) : (colonText l).length < (trim l).length := by
  by_cases hmem : 58 ∈ l
  · obtain ⟨a, v, rfl, ha⟩ := List.eq_append_cons_of_mem hmem
    have hdrop : (a ++ 58 :: v).dropWhile Str.blank = a.dropWhile Str.blank ++ 58 :: v := by
      rw [List.dropWhile_append]
      split
      next hempty => rw [List.isEmpty_iff.mp hempty]; rfl
      next => rfl
    rw [colonText_append ha, trim, hdrop, trimEnd_append rfl, List.length_append, List.length_cons]
    omega
  · rw [colonText_of_not_mem hmem]
    exact List.length_pos_of_ne_nil h

theorem length_colonText_le (l : Bytes) : (colonText l).length ≤ (trim l).length := by
  by_cases h : trim l = []
  · have hblank := trim_eq_nil_iff.mp h
    have hmem : 58 ∉ l := fun hc => absurd (hblank 58 hc) (by decide)
    rw [colonText_of_not_mem hmem]
    exact Nat.zero_le _
  · exact Nat.le_of_lt (length_colonText_lt h)

theorem colonText_blank (h : trim l = []) : colonText l = [] := by
  have hle := length_colonText_le l
  rw [h] at hle
  exact List.eq_nil_of_length_eq_zero (Nat.le_zero.mp hle)

theorem flatMap_colonText_iff {ls : List Bytes} :
    (ls.flatMap fun l => 32 :: colonText l) = (ls.flatMap fun l => 32 :: trim l) ↔ ∀ l ∈ ls, trim l = [] := by
  constructor
  · have hle : ∀ ls : List Bytes, (ls.flatMap fun l => 32 :: colonText l).length ≤
        (ls.flatMap fun l => 32 :: trim l).length := by
      intro ls
      induction ls with
      | nil => exact Nat.le_refl _
      | cons l ls ih =>
        have := length_colonText_le l
        simp only [List.flatMap_cons, List.length_append, List.length_cons]
        omega
    intro heq
    induction ls with
    | nil => exact fun l hl => absurd hl List.not_mem_nil
    | cons l ls ih =>
      have hnil : trim l = [] := by
        by_contra hne
        have hlt := length_colonText_lt hne
        have htail := hle ls
        have hlen := congrArg List.length heq
        simp only [List.flatMap_cons, List.length_append, List.length_cons] at hlen
        omega
      rw [List.flatMap_cons, List.flatMap_cons, hnil, colonText_blank hnil] at heq
      rw [List.forall_mem_cons]
      exact ⟨hnil, ih (List.append_cancel_left heq)⟩
  · intro hblank
    induction ls with
    | nil => rfl
    | cons l ls ih =>
      rw [List.forall_mem_cons] at hblank
      rw [List.flatMap_cons, List.flatMap_cons, ih hblank.2, hblank.1, colonText_blank hblank.1]

theorem unfolded_eq_iff : f.unfolded colonText = f.unfolded trim ↔ ∀ l ∈ f.continuations, l.trim = [] := by
  rw [Header.unfolded, Header.unfolded, List.append_cancel_left_eq, flatMap_colonText_iff]

theorem lookup_put_ne (hne : (Hasher.hash h.key : Int) ≠ Hasher.hash k) :
    lookup Hasher.hash (put m h) (Hasher.hash k) = lookup Hasher.hash m (Hasher.hash k) := by
  have hopened : lookup Hasher.hash (opened m h) (Hasher.hash k) = lookup Hasher.hash m (Hasher.hash k) := by
    unfold opened
    split
    next => rfl
    next => exact lookup_snoc_ne hne.symm
  unfold put
  split
  next => exact hopened
  next => rw [lookup_assign_ne hne.symm, hopened]

/-- A header that is there already changes its value only if it has continuation lines. -/
theorem lookup_put_old (hhas : has Hasher.hash m (Hasher.hash h.key) = true) :
    lookup Hasher.hash (put m h) (Hasher.hash h.key) =
      if h.continuations = [] then lookup Hasher.hash m (Hasher.hash h.key) else some (h.unfolded colonText) := by
  unfold put
  split
  next => rw [opened, if_pos hhas]
  next => exact lookup_assign_self

theorem lookup_put_new (hhas : has Hasher.hash m (Hasher.hash h.key) = false) :
    lookup Hasher.hash (put m h) (Hasher.hash h.key) = some (h.unfolded colonText) := by
  unfold put
  split
  next hnil =>
    rw [opened, hhas, if_neg Bool.false_ne_true, lookup_snoc_self hhas, Header.unfolded, hnil, List.flatMap_nil,
      List.append_nil]
  next => exact lookup_assign_self

/-- The headers of a name that come with continuation lines. -/
def continued (k : Bytes) (vs : List Header) : List Header := vs.filter fun h => h.key = k ∧ h.continuations ≠ []

theorem lookup_later {o : Bytes} (hhash : ∀ h ∈ vs, (Hasher.hash h.key : Int) = Hasher.hash k → h.key = k)
    (hm : lookup Hasher.hash m (Hasher.hash k) = some o) :
    lookup Hasher.hash (vs.foldl put m) (Hasher.hash k) =
      some (((continued k vs).getLast?.map (Header.unfolded colonText)).getD o) := by
  induction vs generalizing m o with
  | nil => exact hm
  | cons h vs ih =>
    have hhas : has Hasher.hash m (Hasher.hash k) = true := by rw [← lookup_isSome, hm]; rfl
    have htail : ∀ h ∈ vs, (Hasher.hash h.key : Int) = Hasher.hash k → h.key = k :=
      fun h' hh' => hhash h' (List.mem_cons_of_mem h hh')
    rw [List.foldl_cons]
    by_cases hk : h.key = k
    · subst hk
      have hput := lookup_put_old hhas
      by_cases hnil : h.continuations = []
      · rw [if_pos hnil, hm] at hput
        rw [ih htail hput, continued, continued, List.filter_cons_of_neg (by simp [hnil])]
      · rw [if_neg hnil] at hput
        rw [ih htail hput, continued, continued, List.filter_cons_of_pos (by simp [hnil]), List.getLast?_cons]
        cases (vs.filter fun h' => h'.key = h.key ∧ h'.continuations ≠ []).getLast? <;> rfl
    · have hput := @lookup_put_ne m k h fun he => hk (hhash h List.mem_cons_self he)
      rw [hm] at hput
      rw [ih htail hput, continued, continued, List.filter_cons_of_neg (by simp [hk])]

theorem lookup_earlier (hne : ∀ u ∈ us, (Hasher.hash u.key : Int) ≠ Hasher.hash k) :
    lookup Hasher.hash (us.foldl put m) (Hasher.hash k) = lookup Hasher.hash m (Hasher.hash k) := by
  induction us generalizing m with
  | nil => rfl
  | cons u us ih =>
    rw [List.forall_mem_cons] at hne
    rw [List.foldl_cons, ih hne.2, lookup_put_ne hne.1]

/-- Names are told apart by the hashes of their lower-cased forms. -/
def HashApart (hs : List Header) : Prop :=
  ∀ h ∈ hs, ∀ h' ∈ hs, (Hasher.hash h.key : Int) = Hasher.hash h'.key → h.key = h'.key

/-- The value under a name: that of its last header with continuation lines, or else that of its first header, without
the text in front of the colons of continuation lines. -/
theorem lookup_block (hhash : HashApart hs) (hsplit : hs = us ++ f :: vs) (hfirst : ∀ u ∈ us, u.key ≠ f.key) :
    lookup Hasher.hash (hs.foldl put []) (Hasher.hash f.key) =
      some (((continued f.key vs).getLast?.getD f).unfolded colonText) := by
  have hmem : ∀ h ∈ us ++ f :: vs, (Hasher.hash h.key : Int) = Hasher.hash f.key → h.key = f.key := by
    intro h hh he
    rw [← hsplit] at hh
    exact hhash h hh f (by rw [hsplit]; simp) he
  have hnone : lookup Hasher.hash (us.foldl put []) (Hasher.hash f.key) = none := by
    rw [lookup_earlier fun u hu he => hfirst u hu (hmem u (List.mem_append_left _ hu) he)]
    rfl
  have hput := @lookup_put_new _ f (lookup_eq_none_iff.mp hnone)
  rw [hsplit, List.foldl_append, List.foldl_cons,
    lookup_later (fun h hh => hmem h (List.mem_append_right _ (List.mem_cons_of_mem f hh))) hput]
  cases (continued f.key vs).getLast? <;> rfl

/-- The blocks whose folded values come out right. Continuation lines of a first header must be blank
where no later header of the name has any; else the last of those must happen to give the value of the
first. -/
def Folds (hs : List Header) : Prop :=
  ∀ us f vs, hs = us ++ f :: vs → (∀ u ∈ us, u.key ≠ f.key) →
    ((continued f.key vs).getLast? = none → ∀ l ∈ f.continuations, l.trim = []) ∧
      ∀ d, (continued f.key vs).getLast? = some d → d.unfolded colonText = f.unfolded trim

/-- After a block of headers the value under every name is the unfolded value of its first header
exactly if the block folds. -/
theorem parse_folds {d : Dictionary Bytes Bytes} (hd : Represents d m) (hfew : hs.length < 200) (hhash : HashApart hs)
    (rest : Bytes) : ∃ s, parse d (block hs ++ rest) = some (.ok s) ∧
      ((∀ us f vs, hs = us ++ f :: vs → (∀ u ∈ us, u.key ≠ f.key) → s.fields.get f.key = some (.ok (f.unfolded trim))) ↔
        Folds hs) := by
  obtain ⟨s, hrun, hs'⟩ := parse_block hd hfew rest
  refine ⟨s, hrun, ?_⟩
  refine forall_congr' fun us => forall_congr' fun f => forall_congr' fun vs => forall_congr' fun hsplit =>
    forall_congr' fun hfirst => ?_
  rw [get_spec hs', lookup_block hhash hsplit hfirst, answer, Option.some.injEq, Except.ok.injEq]
  cases (continued f.key vs).getLast? with
  | none =>
    rw [Option.getD_none, unfolded_eq_iff]
    constructor
    · intro hblank
      exact ⟨fun _ => hblank, fun d' hd' => absurd hd' (Option.some_ne_none d').symm⟩
    · exact fun hboth => hboth.1 rfl
  | some d =>
    rw [Option.getD_some]
    constructor
    · intro heq
      refine ⟨fun hnone => absurd hnone (Option.some_ne_none d), fun d' hd' => ?_⟩
      obtain rfl := Option.some.inj hd'
      exact heq
    · exact fun hboth => hboth.2 d rfl

theorem parse_folds_blank : ∃ s, parse Dictionary.empty (bytes "Host: a\r\n \r\nhost: b\r\n\r\n") = some (.ok s) ∧
    s.fields.get (bytes "host") = some (.ok (bytes "a ")) := by
  let f : Header := ⟨bytes "Host", bytes " a", [bytes " "], by decide, by decide, by decide, by decide⟩
  let f' : Header := ⟨bytes "host", bytes " b", [], by decide, by decide, by decide, by decide⟩
  have hhash : HashApart [f, f'] := by
    intro h hh h' hh' _
    have hkey : ∀ h ∈ [f, f'], h.key = bytes "host" := by
      intro h hh
      simp only [List.mem_cons, List.not_mem_nil, or_false] at hh
      rcases hh with rfl | rfl <;> rfl
    rw [hkey h hh, hkey h' hh']
  obtain ⟨s, hrun, hfolds⟩ := parse_folds represents_empty (by decide : [f, f'].length < 200) hhash []
  refine ⟨s, hrun, hfolds.mpr ?_ [] f [f'] rfl fun u hu => absurd hu List.not_mem_nil⟩
  have hcontinued : ∀ k vs, vs <:+ [f'] → continued k vs = [] := by
    intro k vs hvs
    refine List.filter_eq_nil_iff.mpr fun h hh => ?_
    obtain rfl := List.mem_singleton.mp (hvs.subset hh)
    simp [f']
  intro us g vs hsplit hfirst
  have hvs : vs <:+ [f'] := by
    cases us with
    | nil =>
      obtain ⟨-, rfl⟩ := List.cons.inj hsplit
      exact List.suffix_refl _
    | cons u us => exact ⟨us ++ [g], by rw [List.append_assoc, List.singleton_append]; exact
      (List.cons.inj hsplit).2.symm⟩
  rw [hcontinued _ _ hvs]
  refine ⟨fun _ l hl => ?_, fun d hd => absurd hd (Option.some_ne_none d).symm⟩
  have hg : g ∈ [f, f'] := by rw [hsplit]; simp
  simp only [List.mem_cons, List.not_mem_nil, or_false] at hg
  rcases hg with rfl | rfl
  · obtain rfl := List.mem_singleton.mp hl
    decide
  · exact absurd hl List.not_mem_nil

/-- A continuation line without a colon adds nothing but a space. -/
theorem not_parse_folds : ¬∀ (d : Dictionary Bytes Bytes) (m : List (Bytes × Bytes)) (hs : List Header) (rest : Bytes),
    Represents d m → hs.length < 200 → HashApart hs → ∃ s, parse d (block hs ++ rest) = some (.ok s) ∧
      ∀ us f vs, hs = us ++ f :: vs → (∀ u ∈ us, u.key ≠ f.key) →
        s.fields.get f.key = some (.ok (f.unfolded trim)) := by
  intro h
  let f : Header := ⟨bytes "Subject", bytes " one", [bytes "\ttwo"], by decide, by decide, by decide, by decide⟩
  have hhash : HashApart [f] := by
    intro h hh h' hh' _
    rw [List.mem_singleton.mp hh, List.mem_singleton.mp hh']
  obtain ⟨s, hrun, hget⟩ := h Dictionary.empty [] [f] [] represents_empty (by decide) hhash
  obtain ⟨s', hrun', hs'⟩ := parse_block represents_empty (by decide : [f].length < 200) []
  obtain rfl : s = s' := Except.ok.inj (Option.some.inj (hrun.symm.trans hrun'))
  have hvalue := hget [] f [] rfl fun u hu => absurd hu List.not_mem_nil
  rw [get_spec hs', lookup_block hhash (show [f] = [] ++ f :: [] from rfl) fun u hu =>
    absurd hu List.not_mem_nil] at hvalue
  have hne : (((continued f.key []).getLast?.getD f).unfolded colonText) ≠ f.unfolded trim := by decide
  exact hne (Except.ok.inj (Option.some.inj hvalue))

end HttpHeaders

end Srl
