import Srl.RpcTyped

namespace Srl

open Bytes XML XML.Parser

/-- A tag that neither loop of the reader takes as its own. -/
structure Passed (t : Piece) : Prop where
  plain : t.Plain
  opening : t.form = .opening → t.name ≠ VALUE_TAG ∧ t.name ≠ MEMBER_TAG
  closing : t.form ≠ .opening → t.name ≠ DATA_TAG

theorem Passed.ofClosing {text name : Bytes} (ht : PlainText text) (hn : name ∈ TAGS)
    (hd : name ≠ DATA_TAG) : Passed ⟨text, .closing, name⟩ :=
  ⟨Piece.plain_of_text ht hn, by simp, fun _ => hd⟩

theorem Passed.ofOpening {g name : Bytes} (hg : Gap g) (hn : name ∈ TAGS)
    (hv : name ≠ VALUE_TAG ∧ name ≠ MEMBER_TAG) : Passed ⟨g, .opening, name⟩ :=
  ⟨Piece.plain_of_gap hg hn, fun _ => hv, by simp⟩

/-- The places inside a value where the reader may stand, as what is left there when `K`
stands behind the value. Only what follows a tag that a loop takes matters. -/
inductive Rest (K : List Piece) : List Piece → Prop
  | close {text} : PlainText text → Rest K (⟨text, .closing, VALUE_TAG⟩ :: K)
  | step {t R} : Passed t → Rest K R → Rest K (t :: R)
  | value {g d u R} : Gap g → Doc.WellFormed d → u.Plain → Rest K (u :: R) → Rest K R →
      Rest K (⟨g, .opening, VALUE_TAG⟩ :: (d.body ++ u :: R))
  | member {s d R} : Slot.WellFormed s → Doc.WellFormed d → Rest K R →
      Rest K (header s ++ (d.body ++ ⟨s.endGap, .closing, MEMBER_TAG⟩ :: R))
  | endData {t g R} : t.Plain → t.name = DATA_TAG → t.form ≠ .opening → Gap g → Rest K R →
      Rest K (t :: ⟨g, .closing, ARRAY_TAG⟩ :: R)

namespace Rest

variable {K K' R U : List Piece} {t : Piece} {g : Bytes}

theorem trans (h : Rest K' R) (hK : Rest K K') : Rest K R := by
  induction h with
  | close ht => exact step (.ofClosing ht (by decide) (by decide)) hK
  | step ht _ ih => exact step ht ih
  | value hg hd hu _ _ ih ihR => exact value hg hd hu ih ihR
  | member hs hd _ ih => exact member hs hd ih
  | endData ht hn hf hg _ ih => exact endData ht hn hf hg ih

theorem suffix (h : Rest K R) : ∃ W, W ≠ [] ∧ R = W ++ K := by
  induction h with
  | @close text _ => exact ⟨[_], by simp, rfl⟩
  | @step t _ _ _ ih =>
    obtain ⟨W, _, rfl⟩ := ih
    exact ⟨t :: W, by simp, rfl⟩
  | @value g d u R _ _ _ _ _ _ ih =>
    obtain ⟨W, _, rfl⟩ := ih
    exact ⟨⟨g, .opening, VALUE_TAG⟩ :: (d.body ++ u :: W), by simp, by simp⟩
  | @member s d R _ _ _ ih =>
    obtain ⟨W, _, rfl⟩ := ih
    exact ⟨header s ++ (d.body ++ ⟨s.endGap, .closing, MEMBER_TAG⟩ :: W), by simp [header], by simp⟩
  | @endData t g R _ _ _ _ _ ih =>
    obtain ⟨W, _, rfl⟩ := ih
    exact ⟨t :: ⟨g, .closing, ARRAY_TAG⟩ :: W, by simp, rfl⟩

/-- `R` starts with a tag, and both `R` and what follows the tag are places inside. -/
def Follows (K R : List Piece) : Prop := ∃ u R', R = u :: R' ∧ u.Plain ∧ Rest K (u :: R') ∧ Rest K R'

theorem Follows.rest (h : Follows K R) : Rest K R := by
  obtain ⟨u, R', rfl, -, h, -⟩ := h
  exact h

theorem Follows.value {d : Doc} (h : Follows K R) (hg : Gap g) (hd : d.WellFormed) :
    Rest K (⟨g, .opening, VALUE_TAG⟩ :: (d.body ++ R)) := by
  obtain ⟨u, R', rfl, hu, hR, hR'⟩ := h
  exact Rest.value hg hd hu hR hR'

theorem Follows.ofClosing {name : Bytes} (hg : Gap g) (hn : name ∈ TAGS) (hd : name ≠ DATA_TAG)
    (h : Rest K R) : Follows K (⟨g, .closing, name⟩ :: R) :=
  ⟨_, R, rfl, Piece.plain_of_gap hg hn, step (.ofClosing hg.plainText hn hd) h, h⟩

theorem Follows.endData {g' : Bytes} (hg : Gap g) (hg' : Gap g') (h : Rest K R) :
    Follows K (⟨g, .closing, DATA_TAG⟩ :: ⟨g', .closing, ARRAY_TAG⟩ :: R) := by
  have hplain : (⟨g, .closing, DATA_TAG⟩ : Piece).Plain := Piece.plain_of_gap hg (by decide)
  exact ⟨_, _, rfl, hplain, Rest.endData hplain rfl (by simp) hg' h,
    step (.ofClosing hg'.plainText (by decide) (by decide)) h⟩

/-- Behind the tag of a member. -/
theorem name {s : Slot} {d : Doc} (hs : s.WellFormed) (hd : d.WellFormed) (h : Rest K R) :
    Rest K (⟨s.nameGap, .opening, NAME_TAG⟩ :: ⟨s.name, .closing, NAME_TAG⟩ ::
      ⟨s.valueGap, .opening, VALUE_TAG⟩ :: (d.body ++ ⟨s.endGap, .closing, MEMBER_TAG⟩ :: R)) := by
  apply step (.ofOpening hs.nameGap (by decide) (by decide))
  apply step (.ofClosing hs.name (by decide) (by decide))
  exact (Follows.ofClosing hs.endGap (by decide) (by decide) h).value hs.valueGap hd

mutual

/-- The whole value is a place inside it. -/
theorem ofBody {K : List Piece} : ∀ d : Doc, d.WellFormed → Rest K (d.body ++ K)
  | .scalar type g₁ text g₂, ⟨hg₁, htext, hg₂, _⟩ => by
    have hv : type.tag ≠ VALUE_TAG ∧ type.tag ≠ MEMBER_TAG := by cases type <;> decide
    have hd : type.tag ≠ DATA_TAG := by cases type <;> decide
    exact step (.ofOpening hg₁ type.tag_mem hv) (step (.ofClosing htext type.tag_mem hd) (close hg₂.plainText))
  | .empty type g₁ g₂, ⟨hg₁, hg₂⟩ => by
    have hd : Doc.emptyTag type ≠ DATA_TAG := by
      obtain _ | type := type
      · decide
      · cases type <;> decide
    exact step ⟨Piece.plain_of_gap hg₁ (Doc.emptyTag_mem type), by simp, fun _ => hd⟩ (close hg₂.plainText)
  | .untyped _, htext => close htext
  | .emptyData g₁ g₂ g₃ g₄, ⟨hg₁, hg₂, hg₃, hg₄⟩ => by
    apply step (.ofOpening hg₁ (by decide) (by decide))
    exact Rest.endData (Piece.plain_of_gap hg₂ (by decide)) rfl (by simp) hg₃ (close hg₄.plainText)
  | .array g₁ g₂ items g₃ g₄ g₅, ⟨hg₁, hg₂, hitems, hg₃, hg₄, hg₅⟩ => by
    have hend : Rest K (⟨g₅, .closing, VALUE_TAG⟩ :: K) := close hg₅.plainText
    have h := (ofItems items hitems (Follows.endData hg₃ hg₄ hend)).rest
    apply step (.ofOpening hg₁ (by decide) (by decide))
    apply step (.ofOpening hg₂ (by decide) (by decide))
    simpa using h
  | .struct g₁ members g₂ g₃, ⟨hg₁, hmembers, hg₂, hg₃⟩ => by
    have hend : Rest K (⟨g₃, .closing, VALUE_TAG⟩ :: K) := close hg₃.plainText
    have h := ofMembers members hmembers (step (.ofClosing hg₂.plainText (show STRUCT_TAG ∈ TAGS by decide)
      (by decide)) hend)
    apply step (.ofOpening hg₁ (by decide) (by decide))
    simpa using h

theorem ofItems {K R : List Piece} :
    ∀ items, Doc.ItemsWellFormed items → Follows K R → Follows K (Doc.itemsBody items ++ R)
  | [], _, h => h
  | (g, d) :: items, ⟨hg, hd, hitems⟩, h => by
    have ih := ofItems items hitems h
    refine ⟨⟨g, .opening, VALUE_TAG⟩, d.body ++ (Doc.itemsBody items ++ R), by simp [Doc.itemsBody],
      Piece.plain_of_gap hg (by decide), ih.value hg hd, (ofBody d hd).trans ih.rest⟩

theorem ofMembers {K R : List Piece} :
    ∀ members, Doc.MembersWellFormed members → Rest K R → Rest K (Doc.membersBody members ++ R)
  | [], _, h => h
  | (s, d) :: members, ⟨hs, hd, hmembers⟩, h => by
    have ih := ofMembers members hmembers h
    rw [Doc.membersBody_cons]
    simpa using Rest.member hs hd ih

end

/-- The next tag of a place inside leads to the end of the value or to another place inside. -/
theorem tail (h : Rest K (t :: R)) : t.Plain ∧ (R = K ∨ Rest K R) := by
  cases h with
  | close ht => exact ⟨Piece.plain_of_text ht (by decide), Or.inl rfl⟩
  | step ht h => exact ⟨ht.plain, Or.inr h⟩
  | value hg hd _ h _ => exact ⟨Piece.plain_of_gap hg (by decide), Or.inr ((ofBody _ hd).trans h)⟩
  | member hs hd h => exact ⟨Piece.plain_of_gap hs.gap (by decide), Or.inr (name hs hd h)⟩
  | endData ht _ _ hg h =>
    exact ⟨ht, Or.inr (step (.ofClosing hg.plainText (by decide) (by decide)) h)⟩

theorem exists_cons (h : Rest K R) : ∃ t R', R = t :: R' := by
  obtain ⟨W, hW, rfl⟩ := h.suffix
  obtain ⟨t, W, rfl⟩ := List.exists_cons_of_ne_nil hW
  exact ⟨t, W ++ K, rfl⟩

/-- Inside the value in front of `K'`, which is a place inside itself, one tag can be skipped. -/
theorem skip (h : Rest K' (t :: R)) (hK : Rest K K') : t.Plain ∧ Rest K R := by
  obtain ⟨ht, rfl | hR⟩ := h.tail
  · exact ⟨ht, hK⟩
  · exact ⟨ht, hR.trans hK⟩

end Rest

/-- No loop takes the tag behind a value tag. -/
theorem Doc.body_head {d : Doc} (wf : d.WellFormed) :
    ∃ t R, d.body = t :: R ∧ t.Plain ∧ (t.form = .opening → t.name ≠ VALUE_TAG) ∧ t.name ≠ DATA_TAG := by
  have harray : ARRAY_TAG ≠ VALUE_TAG ∧ ARRAY_TAG ≠ DATA_TAG := by decide
  have hstruct : STRUCT_TAG ≠ VALUE_TAG ∧ STRUCT_TAG ≠ DATA_TAG := by decide
  have hscalar : ∀ s : Scalar, s.tag ≠ VALUE_TAG ∧ s.tag ≠ DATA_TAG := by intro s; cases s <;> decide
  cases d with
  | scalar type g₁ text g₂ =>
    exact ⟨_, _, rfl, Piece.plain_of_gap wf.1 type.tag_mem, fun _ => (hscalar type).1, (hscalar type).2⟩
  | empty type g₁ g₂ =>
    refine ⟨_, _, rfl, Piece.plain_of_gap wf.1 (Doc.emptyTag_mem type), by simp, ?_⟩
    obtain _ | type := type
    · exact hstruct.2
    · exact (hscalar type).2
  | untyped text =>
    have hvalue : VALUE_TAG ≠ DATA_TAG := by decide
    exact ⟨_, _, rfl, Piece.plain_of_text wf (by decide), by simp, hvalue⟩
  | emptyData g₁ g₂ g₃ g₄ =>
    exact ⟨_, _, rfl, Piece.plain_of_gap wf.1 (by decide), fun _ => harray.1, harray.2⟩
  | array g₁ g₂ items g₃ g₄ g₅ =>
    exact ⟨_, _, rfl, Piece.plain_of_gap wf.1 (by decide), fun _ => harray.1, harray.2⟩
  | struct g₁ members g₂ g₃ =>
    exact ⟨_, _, rfl, Piece.plain_of_gap wf.1 (by decide), fun _ => hstruct.1, hstruct.2⟩

end Srl
