import Srl.XmlAttributes

namespace Srl

namespace XML

open Bytes

namespace Element

/-- The loop of `findAttribute`; the end of the rounds stands for one that goes on forever. -/
def findLoop (name : Bytes) (start_pos : Nat) : Nat → Option Attribute → Element →
    Except Stop (Option Attribute × Element)
  | 0, _, _ => .error .endless
  | _ + 1, none, e => .ok (none, e)
  | rounds + 1, some attr, e =>
    if attr.name.same name then .ok (some attr, e)
    else
      match getNextAttribute e with
      | .error s => .error s
      | .ok (none, e) =>
        if 0 < start_pos then
          match getNextAttribute { e with apos := 0 } with
          | .error s => .error s
          | .ok (attr, e) => findLoop name start_pos rounds attr e
        else findLoop name start_pos rounds none e
      | .ok (some attr, e) =>
        if 0 < start_pos ∧ start_pos = e.apos then .ok (none, e) else findLoop name start_pos rounds (some attr) e

def findAttribute (rounds : Nat) (name : Bytes) (e : Element) : Except Stop (Option Attribute × Element) :=
  match getNextAttribute e with
  | .error s => .error s
  | .ok (attr, e') => findLoop name e.apos rounds attr e'

/-- The search for a name ends, with this attribute or `NULL`. -/
def Finds (e : Element) (name : Bytes) (attr : Option Attribute) : Prop :=
  ∃ rounds e', findAttribute rounds name e = .ok (attr, e')

/-- The element after a number of calls of `getNextAttribute`. -/
def readAttributes : Nat → Element → Except Stop Element
  | 0, e => .ok e
  | k + 1, e => do
    let r ← getNextAttribute e
    readAttributes k r.2

variable {name : Bytes} {start_pos rounds : Nat} {attr : Option Attribute} {e : Element}

theorem findLoop_succ {x : Option Attribute × Element} (h : findLoop name start_pos rounds attr e = .ok x) :
    findLoop name start_pos (rounds + 1) attr e = .ok x := by
  induction rounds generalizing attr e with
  | zero => cases h
  | succ rounds ih =>
    cases attr with
    | none => exact h
    | some a =>
      rw [findLoop] at h ⊢
      split at h
      next hsame =>
        rw [if_pos hsame]
        exact h
      next hsame =>
        rw [if_neg hsame]
        cases hnext : getNextAttribute e with
        | error s =>
          rw [hnext] at h
          cases h
        | ok r =>
          obtain ⟨_ | b, e'⟩ := r
          · rw [hnext] at h
            dsimp only at h ⊢
            split at h
            next hpos =>
              rw [if_pos hpos]
              cases hwrap : getNextAttribute { e' with apos := 0 } with
              | error s =>
                rw [hwrap] at h
                cases h
              | ok r =>
                rw [hwrap] at h
                exact ih h
            next hpos =>
              rw [if_neg hpos]
              exact ih h
          · rw [hnext] at h
            dsimp only at h ⊢
            split at h
            next hstop =>
              rw [if_pos hstop]
              exact h
            next hstop =>
              rw [if_neg hstop]
              exact ih h

theorem findLoop_le {rounds' : Nat} {x : Option Attribute × Element} (hle : rounds ≤ rounds')
    (h : findLoop name start_pos rounds attr e = .ok x) : findLoop name start_pos rounds' attr e = .ok x := by
  induction hle with
  | refl => exact h
  | step _ ih => exact findLoop_succ ih

theorem Finds.unique {attr' : Option Attribute} (h : Finds e name attr) (h' : Finds e name attr') : attr = attr' := by
  obtain ⟨r, e₁, h⟩ := h
  obtain ⟨r', e₂, h'⟩ := h'
  unfold findAttribute at h h'
  cases hnext : getNextAttribute e with
  | error s =>
    rw [hnext] at h
    cases h
  | ok x =>
    rw [hnext] at h h'
    have hr := findLoop_le (Nat.le_max_left r r') h
    have hr' := findLoop_le (Nat.le_max_right r r') h'
    exact (Prod.mk.inj (Except.ok.inj (hr.symm.trans hr'))).1

end Element

namespace QuotedAttribute

/-- What a document has to keep to: attributes with names, and no name twice. -/
structure WellFormed (as : List QuotedAttribute) : Prop where
  named : ∀ a ∈ as, a.name ≠ []
  distinct : as.Pairwise fun a b => a.name ≠ b.name

/-- An element with these attributes, which has none where the list is empty. -/
structure Carries (e : Element) (as : List QuotedAttribute) : Prop where
  attributes : e.attributes = renderAll as
  has_attributes : e.has_attributes = !as.isEmpty

/-- The position behind the first `j` attributes, and behind the space that follows them. -/
def offset (as : List QuotedAttribute) (j : Nat) : Nat := ((as.take j).map fun a => a.render.length + 1).sum

/-- The element behind its first `j` attributes. -/
def moved (e : Element) (as : List QuotedAttribute) (j : Nat) : Element := { e with apos := offset as j }

variable {as : List QuotedAttribute} {e : Element} {name : Bytes} {s r i j k d : Nat}

theorem offset_succ (hj : j < as.length) : offset as (j + 1) = offset as j + as[j].render.length + 1 := by
  rw [offset, offset, List.take_add_one, List.getElem?_eq_getElem hj, Option.toList_some, List.map_append,
    List.sum_append, List.map_singleton, List.sum_singleton, Nat.add_assoc]

theorem offset_lt (hlt : i < j) (hj : j ≤ as.length) : offset as i < offset as j := by
  induction j with
  | zero => omega
  | succ j ih =>
    rw [offset_succ hj]
    rcases Nat.lt_succ_iff_lt_or_eq.mp hlt with hij | rfl
    · have := ih hij (by omega)
      omega
    · omega

theorem offset_inj (hi : i ≤ as.length) (hj : j ≤ as.length) (h : offset as i = offset as j) : i = j := by
  rcases Nat.lt_trichotomy i j with hlt | heq | hlt
  · exact absurd h (Nat.ne_of_lt (offset_lt hlt hj))
  · exact heq
  · exact absurd h (Nat.ne_of_gt (offset_lt hlt hi))

theorem Carries.unread (h : Carries e as) (has : as ≠ []) (hj : j ≤ as.length) : Unread (moved e as j) (as.drop j) := by
  induction j with
  | zero =>
    refine ⟨?_, h.attributes⟩
    have hhas := h.has_attributes
    rwa [List.isEmpty_eq_false_iff.mpr has] at hhas
  | succ j ih =>
    have hnext := ih (by omega)
    rw [List.drop_eq_getElem_cons hj] at hnext
    have heq : moved e as (j + 1) = skip (moved e as j) as[j] := by rw [moved, offset_succ hj, skip, moved]
    rw [heq]
    exact hnext.next

theorem length_readAll (as : List QuotedAttribute) : (readAll as).length = as.length := by
  induction as with
  | nil => rfl
  | cons a as ih => rw [readAll, List.length_cons, List.length_cons, ih]

theorem getElem_readAll (hj : j < as.length) : (readAll as)[j]? = some (as[j].readAs (behind (as.drop (j + 1)))) := by
  induction as generalizing j with
  | nil => exact absurd hj (Nat.not_lt_zero j)
  | cons a as ih =>
    cases j with
    | zero => rfl
    | succ j => exact ih (Nat.lt_of_succ_lt_succ hj)

/-- What the reader sees of an attribute. -/
theorem Carries.next (h : Carries e as) (hj : j < as.length) :
    (moved e as j).getNextAttribute = .ok (some (as[j].readAs (behind (as.drop (j + 1)))), moved e as (j + 1)) := by
  have has : as ≠ [] := List.ne_nil_of_length_pos (by omega)
  have hunread := h.unread has (Nat.le_of_lt hj)
  rw [List.drop_eq_getElem_cons hj] at hunread
  rw [getNextAttribute_cons hunread, skip, moved, moved, offset_succ hj]

theorem Carries.last (h : Carries e as) : (moved e as as.length).getNextAttribute =
    .ok (none, moved e as as.length) := by
  by_cases has : as = []
  · rw [Element.getNextAttribute, if_neg]
    rintro ⟨hhas, -⟩
    rw [moved, h.has_attributes, has] at hhas
    cases hhas
  · have hunread := h.unread has (Nat.le_refl _)
    rw [List.drop_length] at hunread
    exact getNextAttribute_nil hunread

theorem readAttributes_spec (h : Carries e as) (hk : j + k ≤ as.length) :
    (moved e as j).readAttributes k = .ok (moved e as (j + k)) := by
  induction k generalizing j with
  | zero => rfl
  | succ k ih =>
    rw [Element.readAttributes, h.next (by omega)]
    show (moved e as (j + 1)).readAttributes k = _
    rw [ih (by omega), Nat.add_right_comm, Nat.add_assoc]

theorem readAs_name {a : QuotedAttribute} (h : a.name ≠ []) (rest : Bytes) : (a.readAs rest).name = a.name := if_neg h

/-- What the search returns for the attribute at `j`. -/
def answer (as : List QuotedAttribute) (j : Nat) : Option Attribute := (readAll as)[j]?

theorem findLoop_hit (hnamed : ∀ a ∈ as, a.name ≠ []) (hj : j < as.length) (hhit : as[j].name.same name = true) :
    Element.findLoop name s (r + 1) (answer as j) (moved e as (j + 1)) =
      .ok (answer as j, moved e as (j + 1)) := by
  rw [answer, getElem_readAll hj, Element.findLoop, readAs_name (hnamed _ (List.getElem_mem hj)), if_pos hhit]

section Search

variable (h : Carries e as) (hnamed : ∀ a ∈ as, a.name ≠ [])

include h hnamed

theorem findLoop_pass (hj : j + 1 < as.length) (hmiss : as[j].name.same name = false)
    (hgo : s ≠ offset as (j + 2)) :
    Element.findLoop name s (r + 1) (answer as j) (moved e as (j + 1)) =
      Element.findLoop name s r (answer as (j + 1)) (moved e as (j + 2)) := by
  rw [answer, getElem_readAll (by omega), Element.findLoop, readAs_name (hnamed _ (List.getElem_mem _)), hmiss,
    if_neg Bool.false_ne_true, h.next hj]
  dsimp only
  rw [if_neg fun hstop => hgo hstop.2, answer, getElem_readAll hj]

theorem findLoop_stop (hj : j + 1 < as.length) (hmiss : as[j].name.same name = false) :
    Element.findLoop name (offset as (j + 2)) (r + 1) (answer as j) (moved e as (j + 1)) =
      .ok (none, moved e as (j + 2)) := by
  have hpos : 0 < offset as (j + 2) := offset_lt (i := 0) (by omega) hj
  rw [answer, getElem_readAll (by omega), Element.findLoop, readAs_name (hnamed _ (List.getElem_mem _)), hmiss,
    if_neg Bool.false_ne_true, h.next hj]
  dsimp only
  rw [if_pos ⟨hpos, rfl⟩]

theorem findLoop_end (hj : j + 1 = as.length) (hmiss : as[j].name.same name = false) :
    Element.findLoop name 0 (r + 2) (answer as j) (moved e as (j + 1)) = .ok (none, moved e as (j + 1)) := by
  have hlast := h.last
  rw [← hj] at hlast
  rw [answer, getElem_readAll (by omega), Element.findLoop, readAs_name (hnamed _ (List.getElem_mem _)), hmiss,
    if_neg Bool.false_ne_true, hlast]
  rfl

theorem findLoop_wrap (hj : j + 1 = as.length) (hmiss : as[j].name.same name = false) (hstart : 0 < s) :
    Element.findLoop name s (r + 1) (answer as j) (moved e as (j + 1)) =
      Element.findLoop name s r (answer as 0) (moved e as 1) := by
  have hlast := h.last
  rw [← hj] at hlast
  have hfirst : ({ moved e as (j + 1) with apos := 0 } : Element).getNextAttribute = _ := h.next (j := 0) (by omega)
  rw [answer, getElem_readAll (by omega), Element.findLoop, readAs_name (hnamed _ (List.getElem_mem _)), hmiss,
    if_neg Bool.false_ne_true, hlast]
  dsimp only
  rw [if_pos hstart, hfirst, answer, getElem_readAll (by omega)]

/-- The search goes on over attributes with other names. -/
theorem findLoop_passes (hd : j + d < as.length) (hmiss : ∀ i (hi : i < as.length), j ≤ i → i < j + d →
    as[i].name.same name = false)
    (hgo : ∀ i, j ≤ i → i < j + d → s ≠ offset as (i + 2)) :
    Element.findLoop name s (r + d) (answer as j) (moved e as (j + 1)) =
      Element.findLoop name s r (answer as (j + d)) (moved e as (j + d + 1)) := by
  induction d generalizing j with
  | zero => rfl
  | succ d ih =>
    rw [← Nat.add_assoc, findLoop_pass h hnamed (by omega) (hmiss j (by omega) (Nat.le_refl j) (by omega))
      (hgo j (Nat.le_refl j) (by omega)),
      ih (by omega) (fun i hi hji hid => hmiss i hi (by omega) (by omega)) fun i hji hid => hgo i (by omega) (by omega)]
    rw [show j + 1 + d = j + (d + 1) by omega]

theorem finds_forward (hki : k ≤ i) (hi : i < as.length) (hhit : as[i].name.same name = true)
    (hmiss : ∀ j (hj : j < as.length), j ≠ i → as[j].name.same name = false) :
    (moved e as k).Finds name (answer as i) := by
  refine ⟨1 + (i - k), moved e as (i + 1), ?_⟩
  have hpass := findLoop_passes (r := 1) (j := k) (d := i - k) (s := offset as k) h hnamed (by omega)
    (fun j hj hkj hji => hmiss j hj (by omega)) fun j hkj hji hoff => by
      have := offset_inj (by omega) (by omega) hoff
      omega
  rw [Element.findAttribute, h.next (by omega)]
  dsimp only
  rw [← getElem_readAll (by omega)]
  show Element.findLoop name (offset as k) (1 + (i - k)) (answer as k) (moved e as (k + 1)) = _
  rw [hpass, show k + (i - k) = i by omega]
  exact findLoop_hit (r := 0) hnamed hi hhit

theorem findLoop_round (hk : 0 < k) (hkn : k < as.length)
    (hmiss : ∀ j (hj : j < as.length), k ≤ j → as[j].name.same name = false) :
    Element.findLoop name (offset as k) (r + (as.length - k)) (answer as k) (moved e as (k + 1)) =
      Element.findLoop name (offset as k) r (answer as 0) (moved e as 1) := by
  have hpos : 0 < offset as k := offset_lt (i := 0) hk (Nat.le_of_lt hkn)
  have hpass := findLoop_passes (r := r + 1) (j := k) (d := as.length - 1 - k) (s := offset as k)
    h hnamed (by omega) (fun j hj hkj hjn => hmiss j hj hkj) fun j hkj hjn hoff => by
      have := offset_inj (by omega) (by omega) hoff
      omega
  rw [show r + (as.length - k) = r + 1 + (as.length - 1 - k) by omega, hpass]
  rw [show k + (as.length - 1 - k) = as.length - 1 by omega]
  exact findLoop_wrap h hnamed (by omega) (hmiss _ (by omega) (by omega)) hpos

theorem finds_wrapped (hik : i < k) (hkn : k < as.length) (hgo : k = 1 ∨ i + 1 ≠ k) (hhit : as[i].name.same name = true)
    (hmiss : ∀ j (hj : j < as.length), j ≠ i → as[j].name.same name = false) :
    (moved e as k).Finds name (answer as i) := by
  refine ⟨1 + i + (as.length - k), moved e as (i + 1), ?_⟩
  have hpass := findLoop_passes (r := 1) (j := 0) (d := i) (s := offset as k) h hnamed (by omega)
    (fun j hj _ hji => hmiss j hj (by omega)) fun j _ hji hoff => by
      have := offset_inj (by omega) (by omega) hoff
      omega
  rw [Element.findAttribute, h.next hkn]
  dsimp only
  rw [← getElem_readAll hkn]
  show Element.findLoop name (offset as k) (1 + i + (as.length - k)) (answer as k) (moved e as (k + 1)) = _
  rw [findLoop_round h hnamed (by omega) hkn fun j hj hkj => hmiss j hj (by omega), hpass, Nat.zero_add]
  exact findLoop_hit (r := 0) hnamed (by omega) hhit

theorem misses_stopped (hk : 2 ≤ k) (hkn : k < as.length)
    (hmiss : ∀ j (hj : j < as.length), j + 1 ≠ k → as[j].name.same name = false) : (moved e as k).Finds name none := by
  refine ⟨1 + (k - 2) + (as.length - k), moved e as k, ?_⟩
  have hpass := findLoop_passes (r := 1) (j := 0) (d := k - 2) (s := offset as k) h hnamed (by omega)
    (fun j hj _ hjk => hmiss j hj (by omega)) fun j _ hjk hoff => by
      have := offset_inj (by omega) (by omega) hoff
      omega
  have hstop := findLoop_stop (r := 0) (j := k - 2) h hnamed (by omega) (hmiss (k - 2) (by omega) (by omega))
  rw [show k - 2 + 2 = k by omega] at hstop
  rw [Element.findAttribute, h.next hkn]
  dsimp only
  rw [← getElem_readAll hkn]
  show Element.findLoop name (offset as k) (1 + (k - 2) + (as.length - k)) (answer as k) (moved e as (k + 1)) = _
  rw [findLoop_round h hnamed (by omega) hkn fun j hj hkj => hmiss j hj (by omega), hpass, Nat.zero_add]
  exact hstop

theorem misses_all (hne : 0 < as.length) (hmiss : ∀ j (hj : j < as.length), as[j].name.same name = false) :
    (moved e as 0).Finds name none := by
  refine ⟨2 + (as.length - 1), moved e as as.length, ?_⟩
  have hpass := findLoop_passes (r := 2) (j := 0) (d := as.length - 1) (s := 0) h hnamed (by omega)
    (fun j hj _ _ => hmiss j hj) fun j _ hjn hoff => by
      have hlt : offset as 0 < offset as (j + 2) := offset_lt (by omega) (by omega)
      omega
  have hend := findLoop_end (r := 0) (j := as.length - 1) h hnamed (by omega) (hmiss _ (by omega))
  rw [show as.length - 1 + 1 = as.length by omega] at hend
  rw [Element.findAttribute, h.next hne]
  dsimp only
  rw [← getElem_readAll hne]
  show Element.findLoop name 0 (2 + (as.length - 1)) (answer as 0) (moved e as 1) = _
  rw [hpass, Nat.zero_add, show as.length - 1 + 1 = as.length by omega]
  exact hend

/-- From behind the first of several attributes a search for another name never stops. -/
theorem findLoop_endless (hmany : 1 < as.length) (hmiss : ∀ j (hj : j < as.length), as[j].name.same name = false)
    (hj : j < as.length) : Element.findLoop name (offset as 1) r (answer as j) (moved e as (j + 1)) =
      .error .endless := by
  induction r generalizing j with
  | zero => rfl
  | succ r ih =>
    by_cases hlast : j + 1 = as.length
    · rw [findLoop_wrap h hnamed hlast (hmiss j hj) (offset_lt (i := 0) (by omega) (by omega))]
      exact ih (by omega)
    · have hgo : offset as 1 ≠ offset as (j + 2) := fun hoff => by
        have := offset_inj (by omega) (by omega) hoff
        omega
      rw [findLoop_pass h hnamed (by omega) (hmiss j hj) hgo]
      exact ih (by omega)

theorem not_finds (hmany : 1 < as.length) (hmiss : ∀ j (hj : j < as.length), as[j].name.same name = false)
    (attr : Option Attribute) : ¬(moved e as 1).Finds name attr := by
  rintro ⟨r, e', hrun⟩
  rw [Element.findAttribute, h.next hmany] at hrun
  dsimp only at hrun
  rw [← getElem_readAll hmany] at hrun
  have hendless := findLoop_endless (r := r) h hnamed hmany hmiss hmany
  have hrun' : Element.findLoop name (offset as 1) r (answer as 1) (moved e as 2) = .ok (attr, e') := hrun
  rw [hendless] at hrun'
  cases hrun'

end Search

theorem finds_behind (h : Carries e as) : (moved e as as.length).Finds name none :=
  ⟨1, moved e as as.length, by rw [Element.findAttribute, h.last]; rfl⟩

/-- The attribute with a name, by the comparison of the search. -/
def wanted (as : List QuotedAttribute) (name : Bytes) : Option QuotedAttribute := as.find? fun a => a.name.same name

theorem WellFormed.miss (h : WellFormed as) (hi : i < as.length) (hhit : as[i].name.same name = true)
    (hj : j < as.length)
    (hji : j ≠ i) : as[j].name.same name = false := by
  rw [Bool.eq_false_iff]
  intro hhit'
  have hplain : ∀ a : QuotedAttribute, cstr a.name = a.name := fun a => cstr_of_ne fun c hc => (a.name_plain c hc).2.2
  have hsame : ∀ (a : QuotedAttribute), a.name.same name = true → a.name = cstr name := fun a ha => by
    rw [same, decide_eq_true_iff, hplain] at ha
    exact ha
  have hname := (hsame _ hhit).trans (hsame _ hhit').symm
  rcases Nat.lt_or_gt_of_ne hji with hlt | hlt
  · exact List.pairwise_iff_getElem.mp h.distinct j i hj hi hlt hname.symm
  · exact List.pairwise_iff_getElem.mp h.distinct i j hi hj hlt hname

theorem WellFormed.wanted_eq (h : WellFormed as) (hi : i < as.length) (hhit : as[i].name.same name = true) :
    wanted as name = some as[i] := by
  rw [wanted, List.find?_eq_some_iff_getElem]
  refine ⟨hhit, i, hi, rfl, fun j hji => ?_⟩
  rw [h.miss hi hhit (by omega) (by omega)]
  rfl

theorem answer_eq_iff (hnamed : ∀ a ∈ as, a.name ≠ []) (hi : i < as.length) :
    answer as i = some as[i].toAttribute ↔ as[i].value ≠ [] := by
  rw [answer, getElem_readAll hi, Option.some.injEq, readAs_eq_iff]
  exact and_iff_right (hnamed _ (List.getElem_mem hi))

/-- Where a search that starts behind `k` attributes is right. It does not reach the attribute in front of
its start unless that is the first one, nor any attribute from the end of the list; a value must have characters
to be read; and from behind the first of several attributes only a name that is there ends the search. -/
def Searchable (as : List QuotedAttribute) (k : Nat) (name : Bytes) : Prop :=
  (∀ i (hi : i < as.length), as[i].name.same name = true →
    as[i].value ≠ [] ∧ (k = 0 ∨ k < as.length ∧ (k = 1 ∨ i + 1 ≠ k))) ∧
  (k = 1 → 1 < as.length → ∃ a ∈ as, a.name.same name = true)

theorem finds_hit_iff (h : Carries e as) (hform : WellFormed as) (hk : k ≤ as.length) (hi : i < as.length)
    (hhit : as[i].name.same name = true) :
    (moved e as k).Finds name (some as[i].toAttribute) ↔
      as[i].value ≠ [] ∧ (k = 0 ∨ k < as.length ∧ (k = 1 ∨ i + 1 ≠ k)) := by
  have hmiss : ∀ j (hj : j < as.length), j ≠ i → as[j].name.same name = false :=
    fun j hj hji => hform.miss hi hhit hj hji
  have hfound : (moved e as k).Finds name (answer as i) →
      ((moved e as k).Finds name (some as[i].toAttribute) ↔ as[i].value ≠ []) := by
    intro hx
    rw [← answer_eq_iff hform.named hi]
    exact ⟨fun hy => hx.unique hy, fun hy => hy ▸ hx⟩
  have hnull : (moved e as k).Finds name none → ¬(moved e as k).Finds name (some as[i].toAttribute) := by
    intro hx hy
    cases hx.unique hy
  by_cases hgo : k = 0 ∨ k < as.length ∧ (k = 1 ∨ i + 1 ≠ k)
  · rw [and_iff_left hgo]
    by_cases hki : k ≤ i
    · exact hfound (finds_forward h hform.named hki hi hhit hmiss)
    · exact hfound (finds_wrapped h hform.named (by omega) (by omega) (by omega) hhit hmiss)
  · rw [iff_false_right fun hboth => hgo hboth.2]
    by_cases hkn : k = as.length
    · rw [hkn] at hnull ⊢
      exact hnull (finds_behind h)
    · exact hnull (misses_stopped h hform.named (by omega) (by omega) fun j hj hjk => hmiss j hj (by omega))

theorem finds_miss_iff (h : Carries e as) (hform : WellFormed as) (hk : k ≤ as.length)
    (hmiss : ∀ j (hj : j < as.length), as[j].name.same name = false) :
    (moved e as k).Finds name none ↔ ¬(k = 1 ∧ 1 < as.length) := by
  by_cases hmany : k = 1 ∧ 1 < as.length
  · rw [iff_false_right (not_not_intro hmany), hmany.1]
    exact not_finds h hform.named hmany.2 hmiss none
  · rw [iff_true_right hmany]
    by_cases hkn : k = as.length
    · rw [hkn]
      exact finds_behind h
    · by_cases hk0 : k = 0
      · rw [hk0]
        exact misses_all h hform.named (by omega) hmiss
      · exact misses_stopped h hform.named (by omega) (by omega) fun j hj _ => hmiss j hj

/-- The search after `k` attributes were read, for every `k`: it ends with the attribute that has the
name, or with `NULL`, exactly where the list is searchable. -/
theorem findAttribute_iff (hform : WellFormed as) (h : Carries e as) (h0 : e.apos = 0) (hk : k ≤ as.length)
    (name : Bytes) :
    ∃ e', e.readAttributes k = .ok e' ∧
      (e'.Finds name ((wanted as name).map (·.toAttribute)) ↔ Searchable as k name) := by
  have hstart : moved e as 0 = e := by rw [moved, offset, List.take_zero, List.map_nil, List.sum_nil, ← h0]
  have hread := readAttributes_spec (j := 0) (k := k) h (by omega)
  rw [hstart, Nat.zero_add] at hread
  refine ⟨moved e as k, hread, ?_⟩
  by_cases hhit : ∃ i, ∃ hi : i < as.length, as[i].name.same name = true
  · obtain ⟨i, hi, hhit⟩ := hhit
    rw [hform.wanted_eq hi hhit, Option.map_some, finds_hit_iff h hform hk hi hhit]
    constructor
    · intro hgo
      refine ⟨fun j hj hhit' => ?_, fun _ _ => ⟨as[i], List.getElem_mem hi, hhit⟩⟩
      by_cases hji : j = i
      · subst hji
        exact hgo
      · rw [hform.miss hi hhit hj hji] at hhit'
        cases hhit'
    · exact fun hsearch => hsearch.1 i hi hhit
  · have hmiss : ∀ j (hj : j < as.length), as[j].name.same name = false := fun j hj => by
      rw [Bool.eq_false_iff]
      exact fun hj' => hhit ⟨j, hj, hj'⟩
    have hnone : wanted as name = none := by
      rw [wanted, List.find?_eq_none]
      intro a ha
      obtain ⟨j, hj, rfl⟩ := List.mem_iff_getElem.mp ha
      rw [hmiss j hj]
      exact Bool.false_ne_true
    rw [hnone, Option.map_none, finds_miss_iff h hform hk hmiss]
    constructor
    · exact fun hmany => ⟨fun i hi hi' => absurd ⟨i, hi, hi'⟩ hhit, fun hk1 hn => absurd ⟨hk1, hn⟩ hmany⟩
    · rintro ⟨-, hpresent⟩ ⟨hk1, hn⟩
      obtain ⟨a, ha, ha'⟩ := hpresent hk1 hn
      obtain ⟨j, hj, rfl⟩ := List.mem_iff_getElem.mp ha
      exact hhit ⟨j, hj, ha'⟩

theorem findAttribute_iff_second :
    ∃ e', (⟨bytes "t", bytes "a=\"1\" b='2'", [], false, true, 0⟩ : Element).readAttributes 1 = .ok e' ∧
    e'.Finds (bytes "a") (some ⟨bytes "a", bytes "1"⟩) := by
  obtain ⟨e', he', hfinds⟩ := @findAttribute_iff
    [⟨⟨bytes "a", bytes "1"⟩, 34, .inl rfl, by decide, by decide⟩,
      ⟨⟨bytes "b", bytes "2"⟩, 39, .inr rfl, by decide, by decide⟩]
    ⟨bytes "t", bytes "a=\"1\" b='2'", [], false, true, 0⟩ 1
    ⟨by simp [bytes], by simp [bytes]⟩ ⟨rfl, rfl⟩ rfl (by decide) (bytes "a")
  refine ⟨e', he', hfinds.mpr ⟨fun i hi hhit => ?_, fun _ _ => ⟨_, List.mem_cons_self, rfl⟩⟩⟩
  obtain rfl | rfl : i = 0 ∨ i = 1 := by
    simp only [List.length_cons, List.length_nil] at hi
    omega
  · exact ⟨by simp [bytes], by decide⟩
  · exact ⟨by simp [bytes], by decide⟩

/-- Behind both attributes of `a="1" b='2'` the search for `a` returns `NULL`. -/
theorem not_findAttribute : ¬∀ (as : List QuotedAttribute) (e : Element) (k : Nat) (name : Bytes),
    WellFormed as → Carries e as →
    e.apos = 0 → k ≤ as.length →
    ∃ e', e.readAttributes k = .ok e' ∧ e'.Finds name ((wanted as name).map (·.toAttribute)) := by
  intro h
  obtain ⟨e', he', hfinds⟩ := h
    [⟨⟨bytes "a", bytes "1"⟩, 34, .inl rfl, by decide, by decide⟩,
      ⟨⟨bytes "b", bytes "2"⟩, 39, .inr rfl, by decide, by decide⟩]
    ⟨bytes "t", bytes "a=\"1\" b='2'", [], false, true, 0⟩ 2 (bytes "a")
    ⟨by simp [bytes], by simp [bytes]⟩ ⟨rfl, rfl⟩ rfl (by decide)
  have hread : (⟨bytes "t", bytes "a=\"1\" b='2'", [], false, true, 0⟩ : Element).readAttributes 2 =
      .ok ⟨bytes "t", bytes "a=\"1\" b='2'", [], false, true, 12⟩ := by decide
  obtain rfl := Except.ok.inj (hread.symm.trans he')
  have hnull : (⟨bytes "t", bytes "a=\"1\" b='2'", [], false, true, 12⟩ : Element).Finds (bytes "a") none :=
    ⟨1, _, rfl⟩
  cases hnull.unique hfinds

end QuotedAttribute

end XML

end Srl
