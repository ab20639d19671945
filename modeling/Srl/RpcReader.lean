import Srl.RpcDocument

namespace Srl

open Bytes XML

def TAGS : List Bytes :=
  [VALUE_TAG, BOOLEAN_TAG, DOUBLE_TAG, INT_TAG, I4_TAG, STRING_TAG, DATETIME_TAG, BASE64_TAG, ARRAY_TAG,
    DATA_TAG, STRUCT_TAG, MEMBER_TAG, NAME_TAG]

theorem plainName_of_mem {name : Bytes} (h : name ∈ TAGS) : PlainName name :=
  (by decide : ∀ name ∈ TAGS, PlainName name) name h

theorem Scalar.tag_mem (s : Scalar) : s.tag ∈ TAGS := by cases s <;> decide

theorem Doc.emptyTag_mem (type : Option Scalar) : emptyTag type ∈ TAGS := by
  cases type with
  | none => decide
  | some s => exact s.tag_mem

theorem Gap.plainText {g : Bytes} (h : Gap g) : PlainText g := by
  intro c hc
  have := h c hc
  constructor <;> rintro rfl <;> simp [isspace] at this

theorem Gap.not_inked {g : Bytes} (h : Gap g) : ¬Inked g := by
  simpa [Inked, Gap] using h

theorem PlainText.gap {text : Bytes} (h : ¬Inked text) : Gap text := by
  simpa [Inked, Gap] using h

theorem decide_inked (text : Bytes) : decide (Inked text) = text.any (!isspace ·) := by
  rw [Bool.eq_iff_iff, decide_eq_true_iff, Inked]

theorem Inked.ne_nil {text : Bytes} (h : Inked text) : text ≠ [] := by
  rintro rfl
  simp [Inked] at h

namespace XML

theorem Piece.plain_of_text {text name : Bytes} {f : TagForm} (ht : PlainText text) (hn : name ∈ TAGS) :
    (⟨text, f, name⟩ : Piece).Plain := ⟨ht, plainName_of_mem hn⟩

theorem Piece.plain_of_gap {g name : Bytes} {f : TagForm} (hg : Gap g) (hn : name ∈ TAGS) :
    (⟨g, f, name⟩ : Piece).Plain := plain_of_text hg.plainText hn

theorem PlainName.cstr {name : Bytes} (h : PlainName name) : Bytes.cstr name = name :=
  cstr_of_ne fun c hc => (h.2.1 c hc).2.1

theorem Piece.named {t : Piece} {tag : Bytes} (ht : t.Plain) (htag : tag ∈ TAGS) :
    t.element.named tag = decide (t.name = tag) := by
  simp [Element.named, Piece.element, same, ht.name.cstr, (plainName_of_mem htag).cstr]

theorem Reads.setElement {p : Parser} {ts : List Piece} {tail : Bytes} (h : Reads p ts tail) (e : Element) :
    Reads { p with element := e } ts tail := ⟨h.file, h.rest⟩

/-- The element that a closing `value` tag leaves. -/
def closedValue : Element := ⟨VALUE_TAG, [], [], true, false, 0⟩

namespace Parser

variable {p : Parser} {t u : Piece} {K : List Piece} {tail g : Bytes} {n : Nat}
  {a : List RpcValue} {m : List (Bytes × RpcValue)}

theorem orStop_next (h : Reads p (t :: K) tail) (ht : t.Plain) :
    ∃ p', orStop p.getNextElement = .ok (true, p') ∧ Reads p' K tail ∧ p'.element = t.element := by
  obtain ⟨p', hp', hr, he⟩ := getNextElement_spec h ht
  exact ⟨p', by rw [hp', orStop], hr, he⟩

theorem orStop_hasContent (h : Reads p (t :: K) tail) (ht : PlainText t.text) (he : p.element = u.element)
    (hu : u.form = .opening) : orStop p.hasContent = .ok (decide (Inked t.text), p) := by
  have hcl : p.element.is_closing = false := by simp [he, Piece.element, hu]
  rw [hasContent_spec h ht (by rw [he]; rfl) hcl, orStop, decide_inked]

theorem orStop_hasContent_closing (he : p.element = u.element) (hu : u.form ≠ .opening) :
    orStop p.hasContent = .ok (false, p) := by
  rw [hasContent_closing (by rw [he]; rfl) (by simp [he, Piece.element, hu]), orStop]

theorem orStop_getContent (h : Reads p (t :: K) tail) (ht : PlainText t.text) (hi : Inked t.text)
    (he : p.element = u.element) :
    ∃ p', orStop p.getContent = .ok (t.text, p') ∧ Reads p' (t :: K) tail ∧
      p'.element.is_closing = p.element.is_closing := by
  refine ⟨_, ?_, h.setElement { p.element with content := t.text }, rfl⟩
  rw [getContent_spec h ht hi.ne_nil (by rw [he]; rfl), orStop]

/-- A tag is there, and then the value tag that `FromXml` steps over. -/
theorem finish_spec (v : RpcValue) (h : Reads p (⟨g, .closing, VALUE_TAG⟩ :: K) tail) (hg : Gap g) :
    ∃ p', finish v p = .ok (v, p') ∧ Reads p' K tail ∧ p'.element = closedValue := by
  obtain ⟨p', hp', hr, he⟩ := orStop_next h (Piece.plain_of_gap hg (by decide))
  exact ⟨p', by rw [finish, hp']; rfl, hr, he⟩

theorem scalarBranch_spec {make : Bytes → Option RpcValue} (blank : RpcValue) (he : p.element = u.element)
    (hu : u.form = .opening) (h : Reads p (t :: ⟨g, .closing, VALUE_TAG⟩ :: K) tail) (ht : t.Plain)
    (hg : Gap g) (hm : Inked t.text → (make t.text).isSome) :
    ∃ p', scalarBranch make blank p =
        .ok (if Inked t.text then (make t.text).getD .NULL else blank, p') ∧
      Reads p' K tail ∧ p'.element = closedValue := by
  have hcontent := orStop_hasContent h ht.text he hu
  by_cases hi : Inked t.text
  · obtain ⟨v, hv⟩ := Option.isSome_iff_exists.mp (hm hi)
    obtain ⟨p₁, hp₁, hr₁, -⟩ := orStop_getContent h ht.text hi he
    obtain ⟨p₂, hp₂, hr₂, -⟩ := orStop_next hr₁ ht
    obtain ⟨p₃, hp₃, hr₃, he₃⟩ := finish_spec v hr₂ hg
    refine ⟨p₃, ?_, hr₃, he₃⟩
    simp [scalarBranch, hcontent, hi, hp₁, hv, hp₂, hp₃, bind, Except.bind]
  · obtain ⟨p₂, hp₂, hr₂, -⟩ := orStop_next h ht
    obtain ⟨p₃, hp₃, hr₃, he₃⟩ := finish_spec blank hr₂ hg
    refine ⟨p₃, ?_, hr₃, he₃⟩
    simp [scalarBranch, hcontent, hi, hp₂, hp₃, bind, Except.bind]

/-- An empty type tag has the closing value tag behind it already. -/
theorem scalarBranch_empty (make : Bytes → Option RpcValue) (blank : RpcValue) (he : p.element = u.element)
    (hu : u.form ≠ .opening) (h : Reads p (t :: K) tail) (ht : t.Plain) :
    ∃ p', scalarBranch make blank p = finish blank p' ∧ Reads p' K tail := by
  obtain ⟨p', hp', hr, -⟩ := orStop_next h ht
  refine ⟨p', ?_, hr⟩
  simp [scalarBranch, orStop_hasContent_closing he hu, hp', bind, Except.bind]

section

variable {array : Parser → Except RpcStop (List RpcValue × Parser)}
  {members : Parser → Except RpcStop (List (Bytes × RpcValue) × Parser)}

theorem readType_scalar (s : Scalar) (he : p.element.name = s.tag) :
    readType array members p = scalarBranch s.make s.blank p := by
  cases s <;> simp +decide [readType, Element.named, he, Scalar.tag, Scalar.make, Scalar.blank]

theorem readType_array (he : p.element.name = ARRAY_TAG) :
    readType array members p = (do
      let p ← arrayBegin p
      let (values, p) ← array p
      let p ← arrayEnd p
      finish (.array values) p) := by
  simp +decide [readType, Element.named, he]

theorem readType_struct (he : p.element.name = STRUCT_TAG) :
    readType array members p = (do
      let (entries, p) ← members p
      finish (.struct entries) p) := by
  simp +decide [readType, Element.named, he]

theorem readType_base64 (he : p.element.name = BASE64_TAG) :
    readType array members p = (do
      let (v, p) ← readBinary p
      finish v p) := by
  simp +decide [readType, Element.named, he]

theorem readType_value (he : p.element.name = VALUE_TAG) : readType array members p = finish .NULL p := by
  simp +decide [readType, Element.named, he]

end

/-- `FromXml` returns on a text without a type tag, in front of the closing value tag. -/
theorem readValue_untyped (he : p.element = (⟨g, .opening, VALUE_TAG⟩ : Piece).element)
    (h : Reads p (t :: K) tail) (ht : PlainText t.text) (hi : Inked t.text) :
    ∃ p', readValue (n + 1) p = .ok (.ofString (decode t.text), p') ∧ Reads p' (t :: K) tail := by
  have hname : p.element.named VALUE_TAG = true := by rw [he]; rfl
  obtain ⟨p', hp', hr, -⟩ := orStop_getContent h ht hi he
  refine ⟨p', ?_, hr⟩
  simp [readValue, hname, orStop_hasContent h ht he rfl, hi, hp', bind, Except.bind]

theorem readValue_tag (he : p.element = (⟨g, .opening, VALUE_TAG⟩ : Piece).element)
    (h : Reads p (t :: K) tail) (ht : t.Plain) (hi : ¬Inked t.text) :
    ∃ p', readValue (n + 1) p = readType (arrayLoop n []) (structLoop n []) p' ∧
      Reads p' K tail ∧ p'.element = t.element := by
  have hname : p.element.named VALUE_TAG = true := by rw [he]; rfl
  obtain ⟨p', hp', hr, he'⟩ := orStop_next h ht
  refine ⟨p', ?_, hr, he'⟩
  simp [readValue, hname, orStop_hasContent h ht.text he rfl, hi, hp', expect, bind, Except.bind]

theorem arrayBegin_spec (h : Reads p (t :: K) tail) (ht : t.Plain) (hn : t.name = DATA_TAG) :
    ∃ p', arrayBegin p = .ok p' ∧ Reads p' K tail := by
  obtain ⟨p', hp', hr, he⟩ := orStop_next h ht
  refine ⟨p', ?_, hr⟩
  have : p'.element.named DATA_TAG = true := by rw [he, Piece.named ht (by decide), hn]; rfl
  simp [arrayBegin, hp', this, expect, bind, Except.bind]

/-- In front of an array `FromXml` goes to the reader of its items. -/
theorem readValue_array {g' : Bytes} (he : p.element = (⟨g, .opening, VALUE_TAG⟩ : Piece).element)
    (h : Reads p (⟨g', .opening, ARRAY_TAG⟩ :: t :: K) tail) (hg : Gap g') (ht : t.Plain) (hn : t.name = DATA_TAG) :
    ∃ p', readValue (n + 1) p = (do
        let (values, p) ← arrayLoop n [] p'
        let p ← arrayEnd p
        finish (.array values) p) ∧
      Reads p' K tail := by
  obtain ⟨p₁, hp₁, hr₁, he₁⟩ := readValue_tag (n := n) he h (Piece.plain_of_gap hg (by decide)) hg.not_inked
  obtain ⟨p₂, hp₂, hr₂⟩ := arrayBegin_spec hr₁ ht hn
  refine ⟨p₂, ?_, hr₂⟩
  rw [hp₁, readType_array (by rw [he₁]; rfl), hp₂]
  rfl

/-- In front of a struct it goes to the reader of the members. -/
theorem readValue_struct {g' : Bytes} (he : p.element = (⟨g, .opening, VALUE_TAG⟩ : Piece).element)
    (h : Reads p (⟨g', .opening, STRUCT_TAG⟩ :: K) tail) (hg : Gap g') :
    ∃ p', readValue (n + 1) p = (do
        let (entries, p) ← structLoop n [] p'
        finish (.struct entries) p) ∧
      Reads p' K tail := by
  obtain ⟨p₁, hp₁, hr₁, he₁⟩ := readValue_tag (n := n) he h (Piece.plain_of_gap hg (by decide)) hg.not_inked
  exact ⟨p₁, hp₁.trans (readType_struct (by rw [he₁]; rfl)), hr₁⟩

theorem arrayLoop_value (h : Reads p (⟨g, .opening, VALUE_TAG⟩ :: K) tail) (hg : Gap g) :
    ∃ p', arrayLoop (n + 1) a p = (do
        let (v, p) ← readValue n p'
        arrayLoop n (a ++ [v]) p) ∧
      Reads p' K tail ∧ p'.element = (⟨g, .opening, VALUE_TAG⟩ : Piece).element := by
  obtain ⟨p', hp', hr, he⟩ := orStop_next h (Piece.plain_of_gap hg (by decide))
  refine ⟨p', ?_, hr, he⟩
  have hname : p'.element.named VALUE_TAG = true := by rw [he]; rfl
  have hcl : p'.element.is_closing = false := by rw [he]; rfl
  simp [arrayLoop, hp', hname, hcl, bind, Except.bind]

theorem arrayLoop_stop (h : Reads p (t :: K) tail) (ht : t.Plain)
    (hn : t.form = .opening → t.name ≠ VALUE_TAG) :
    ∃ p', arrayLoop (n + 1) a p = .ok (a, p') ∧ Reads p' K tail ∧ p'.element = t.element := by
  obtain ⟨p', hp', hr, he⟩ := orStop_next h ht
  refine ⟨p', ?_, hr, he⟩
  have hstop : (p'.element.named VALUE_TAG && !p'.element.is_closing) = false := by
    rw [he, Piece.named ht (by decide)]
    by_cases hf : t.form = .opening <;> simp [Piece.element, hf, hn]
  simp [arrayLoop, hp', hstop, bind, Except.bind]

theorem arrayEnd_spec (he : p.element = u.element) (hu : u.Plain) (hn : u.name = DATA_TAG)
    (hf : u.form ≠ .opening) (h : Reads p (⟨g, .closing, ARRAY_TAG⟩ :: K) tail) (hg : Gap g) :
    ∃ p', arrayEnd p = .ok p' ∧ Reads p' K tail := by
  obtain ⟨p', hp', hr, he'⟩ := orStop_next h (Piece.plain_of_gap hg (by decide))
  have hd : (p.element.named DATA_TAG && p.element.is_closing) = true := by
    rw [he, Piece.named hu (by decide)]
    simp [Piece.element, hn, hf]
  have ha : (p'.element.named ARRAY_TAG && p'.element.is_closing) = true := by rw [he']; rfl
  refine ⟨p', ?_, hr⟩
  simp [arrayEnd, hd, hp', ha, expect, bind, Except.bind]

theorem arrayEnd_error (he : p.element = u.element) (hu : u.Plain)
    (hn : u.form ≠ .opening → u.name ≠ DATA_TAG) : ∃ e, arrayEnd p = .error e := by
  have hd : (p.element.named DATA_TAG && p.element.is_closing) = false := by
    rw [he, Piece.named hu (by decide)]
    by_cases hf : u.form = .opening <;> simp [Piece.element, hf, hn]
  refine ⟨.IOException "array has invalid xml, missing closing data tag", ?_⟩
  simp [arrayEnd, hd, expect, bind, Except.bind]

/-- The element is still the opening tag when the end tag is looked for. -/
theorem readBinary_error (he : p.element = u.element) (hu : u.form = .opening) (h : Reads p (t :: K) tail)
    (ht : PlainText t.text) :
    readBinary p = .error (.IOException
      (if Inked t.text then "base64 tag has no end tag" else "base64 tag has no content")) := by
  have hcontent := orStop_hasContent h ht he hu
  split
  next hi =>
    obtain ⟨p', hp', -, hcl⟩ := orStop_getContent h ht hi he
    have hcl : p'.element.is_closing = false := by simp [hcl, he, Piece.element, hu]
    simp [readBinary, hcontent, hi, hp', hcl, expect, bind, Except.bind]
  next hi => simp [readBinary, hcontent, hi, expect, bind, Except.bind]

/-- The pieces in front of the value of a member. -/
def header (s : Slot) : List Piece :=
  [⟨s.gap, .opening, MEMBER_TAG⟩, ⟨s.nameGap, .opening, NAME_TAG⟩, ⟨s.name, .closing, NAME_TAG⟩,
    ⟨s.valueGap, .opening, VALUE_TAG⟩]

theorem structLoop_member {s : Slot} (h : Reads p (header s ++ K) tail) (hs : s.WellFormed) :
    if Inked s.name then
      ∃ p', structLoop (n + 1) m p = (do
          let (v, p) ← readValue n p'
          let m ← RpcStructValue.set m s.name v
          let (_, p) ← orStop p.getNextElement
          structLoop n m p) ∧
        Reads p' K tail ∧ p'.element = (⟨s.valueGap, .opening, VALUE_TAG⟩ : Piece).element
    else ∃ e, structLoop (n + 1) m p = .error e := by
  obtain ⟨p₁, hp₁, hr₁, he₁⟩ := orStop_next h (Piece.plain_of_gap hs.gap (by decide))
  obtain ⟨p₂, hp₂, hr₂, he₂⟩ := orStop_next hr₁ (Piece.plain_of_gap hs.nameGap (by decide))
  have hm : (p₁.element.named MEMBER_TAG && !p₁.element.is_closing) = true := by rw [he₁]; rfl
  have hn : (p₂.element.named NAME_TAG && !p₂.element.is_closing) = true := by rw [he₂]; rfl
  have hcontent := orStop_hasContent hr₂ hs.name he₂ rfl
  split
  next hi =>
    obtain ⟨p₃, hp₃, hr₃, -⟩ := orStop_getContent hr₂ hs.name hi he₂
    obtain ⟨p₄, hp₄, hr₄, he₄⟩ := orStop_next hr₃ (Piece.plain_of_text hs.name (by decide))
    obtain ⟨p₅, hp₅, hr₅, he₅⟩ := orStop_next hr₄ (Piece.plain_of_gap hs.valueGap (by decide))
    have hc : (p₄.element.named NAME_TAG && p₄.element.is_closing) = true := by rw [he₄]; rfl
    have hv : p₅.element.named VALUE_TAG = true := by rw [he₅]; rfl
    refine ⟨p₅, ?_, hr₅, he₅⟩
    simp [structLoop, memberName, hp₁, hp₂, hp₃, hp₄, hp₅, hm, hn, hc, hv, hcontent, hi, expect, bind,
      Except.bind]
  next hi =>
    refine ⟨.IOException "struct name field has no data in xml", ?_⟩
    simp [structLoop, memberName, hp₁, hp₂, hm, hn, hcontent, hi, expect, bind, Except.bind]

theorem structLoop_stop (h : Reads p (t :: K) tail) (ht : t.Plain)
    (hn : t.form = .opening → t.name ≠ MEMBER_TAG) :
    ∃ p', structLoop (n + 1) m p = .ok (m, p') ∧ Reads p' K tail ∧ p'.element = t.element := by
  obtain ⟨p', hp', hr, he⟩ := orStop_next h ht
  refine ⟨p', ?_, hr, he⟩
  have hstop : (p'.element.named MEMBER_TAG && !p'.element.is_closing) = false := by
    rw [he, Piece.named ht (by decide)]
    by_cases hf : t.form = .opening <;> simp [Piece.element, hf, hn]
  simp [structLoop, hp', hstop, bind, Except.bind]

end Parser

end XML

end Srl
