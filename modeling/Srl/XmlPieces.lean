import Srl.BytesFind
import Srl.XmlParser

namespace Srl

namespace XML

open Bytes

inductive TagForm
  | opening
  | closing
  | empty
  deriving DecidableEq, Repr

/-- A stretch of a document: text without markup, and the tag that ends it. -/
structure Piece where
  text : Bytes
  form : TagForm
  name : Bytes
  deriving DecidableEq, Repr

/-- What stands between the brackets of the tag. -/
def Piece.tag (t : Piece) : Bytes :=
  match t.form with
  | .opening => t.name
  | .closing => 47 :: t.name
  | .empty => t.name ++ [47]

def Piece.render (t : Piece) : Bytes := t.text ++ 60 :: (t.tag ++ [62])

def render (ts : List Piece) : Bytes := ts.flatMap Piece.render

/-- Names that the parser takes as they are: no slash or question mark, no attributes. -/
def PlainName (name : Bytes) : Prop :=
  name ≠ [] ∧ (∀ c ∈ name, c ≠ 62 ∧ c ≠ 0 ∧ c ≠ 61) ∧ name.head? ≠ some 47 ∧ name.head? ≠ some 63 ∧
    name.getLast? ≠ some 47

instance (name : Bytes) : Decidable (PlainName name) := by unfold PlainName; infer_instance

/-- Text that holds no tag and no terminator. -/
def PlainText (text : Bytes) : Prop := ∀ c ∈ text, c ≠ 60 ∧ c ≠ 0

instance (text : Bytes) : Decidable (PlainText text) := by unfold PlainText; infer_instance

structure Piece.Plain (t : Piece) : Prop where
  text : PlainText t.text
  name : PlainName t.name

/-- A parser of a string that stands in front of the given pieces. -/
structure Reads (p : Parser) (ts : List Piece) (tail : Bytes) : Prop where
  file : p.xml_file = none
  rest : p.xml.drop p.pos = render ts ++ tail

@[simp] theorem render_cons (t : Piece) (ts : List Piece) : render (t :: ts) = t.render ++ render ts := rfl

@[simp] theorem render_nil : render [] = [] := rfl

theorem render_append (ts us : List Piece) : render (ts ++ us) = render ts ++ render us :=
  List.flatMap_append

theorem drop_add_of_drop {s rest : Bytes} (text : Bytes) {pos : Nat} (h : s.drop pos = text ++ rest) :
    s.drop (pos + text.length) = rest := by
  rw [← List.drop_drop, h, List.drop_left']
  rfl

variable {p : Parser} {t : Piece} {ts : List Piece} {tail : Bytes}

theorem Reads.rest_cons (h : Reads p (t :: ts) tail) :
    p.xml.drop p.pos = t.text ++ 60 :: (t.tag ++ 62 :: (render ts ++ tail)) := by
  simpa [Piece.render] using h.rest

theorem Reads.pos_lt (h : Reads p (t :: ts) tail) : p.pos < p.xml.length := by
  have := congrArg List.length h.rest_cons
  simp only [List.length_drop, List.length_append, List.length_cons] at this
  omega

/-- The element that a tag leaves in the parser: an empty tag counts as a closing one. -/
def Piece.element (t : Piece) : Element := ⟨t.name, [], [], t.form ≠ .opening, false, 0⟩

theorem Piece.tag_ne_nil (ht : t.Plain) : t.tag ≠ [] := by
  have := ht.name.1
  cases hf : t.form <;> simp [Piece.tag, hf, this]

theorem Piece.mem_tag (ht : t.Plain) : ∀ c ∈ t.tag, c ≠ 62 ∧ c ≠ 0 := by
  intro c hc
  have hc : c = 47 ∨ c ∈ t.name := by
    cases hf : t.form <;> simp [Piece.tag, hf] at hc <;> tauto
  obtain rfl | hc := hc
  · decide
  · exact ⟨(ht.name.2.1 c hc).1, (ht.name.2.1 c hc).2.1⟩

namespace Parser

theorem markElement_tag {e : Element} (ht : t.Plain) (he : e.name = t.tag) :
    markElement e = .ok { e with name := t.name, is_closing := t.form ≠ .opening } := by
  obtain ⟨hne, -, hslash, hmark, hlast⟩ := ht.name
  obtain ⟨c, name, hname⟩ := List.exists_cons_of_ne_nil hne
  simp only [hname, List.head?_cons, ne_eq, Option.some.injEq] at hslash hmark
  rw [hname] at hlast
  cases hf : t.form with
  | opening => simp [markElement, he, Piece.tag, hf, charAt, hname, hslash, hmark, hlast]
  | closing => simp [markElement, he, Piece.tag, hf, charAt]
  | empty =>
    have : (c :: (name ++ [47])).dropLast = c :: name := @List.dropLast_concat _ (c :: name) 47
    have hget : (c :: (name ++ [47])).getLast? = some 47 := List.getLast?_concat (l := c :: name)
    simp [markElement, he, Piece.tag, hf, charAt, hname, hslash, hget, this]

theorem splitAttributes_plain {e : Element} (he : PlainName e.name) :
    splitAttributes e = .ok { e with has_attributes := false } := by
  have hfind : e.name.find 61 0 = none := find_eq_none (by decide) fun x hx => (he.2.1 x (by simpa using hx)).2.2
  simp [splitAttributes, hfind]

/-- A tag behind the cleared element becomes the element. -/
theorem parseElement_spec (hp : p.xml.drop p.pos = t.tag ++ 62 :: (render ts ++ tail)) (ht : t.Plain)
    (hf : p.xml_file = none) (he : p.element.name = [] ∧ p.element.attributes = [] ∧
      p.element.content = [] ∧ p.element.apos = 0) :
    ∃ p', parseElement p = .ok p' ∧ Reads p' ts tail ∧ p'.element = t.element := by
  obtain ⟨hn, ha, hc, hap⟩ := he
  have hfind : p.xml.find 62 p.pos = some (p.pos + t.tag.length) :=
    find_eq hp (by decide) (Piece.mem_tag ht)
  have hname : p.xml.substr p.pos t.tag.length = t.tag := substr_eq hp (Piece.tag_ne_nil ht)
  have hclose : closeTag p.pieces p =
      .ok { p with element := { p.element with name := t.tag }, pos := p.pos + t.tag.length + 1 } := by
    simp [pieces, closeTag, hfind, hn, hname]
  have hmark := markElement_tag (e := { p.element with name := t.tag }) ht rfl
  have hsplit := splitAttributes_plain
    (e := { p.element with name := t.name, is_closing := t.form ≠ .opening }) ht.name
  refine ⟨{ p with element := t.element, pos := p.pos + t.tag.length + 1 }, ?_, ⟨hf, ?_⟩, rfl⟩
  · simp only [parseElement, hclose, hmark, hsplit, bind, Except.bind]
    simp [Piece.element, ha, hc, hap]
  · have := drop_add_of_drop (t.tag ++ [62]) (by simpa using hp)
    simpa [Nat.add_assoc] using this

/-- `getNextElement` takes the next piece. -/
theorem getNextElement_spec (h : Reads p (t :: ts) tail) (ht : t.Plain) :
    ∃ p', getNextElement p = .ok (true, p') ∧ Reads p' ts tail ∧ p'.element = t.element := by
  have hlt := h.pos_lt
  have hfind : p.xml.find 60 p.pos = some (p.pos + t.text.length) :=
    find_eq h.rest_cons (by decide) ht.text
  have hdrop : p.xml.drop (p.pos + t.text.length + 1) = t.tag ++ 62 :: (render ts ++ tail) := by
    have hrest : p.xml.drop p.pos = (t.text ++ [60]) ++ (t.tag ++ 62 :: (render ts ++ tail)) := by
      simpa using h.rest_cons
    simpa [Nat.add_assoc] using drop_add_of_drop _ hrest
  obtain ⟨p', hp', hr, he⟩ := parseElement_spec
    (p := { p with element := p.element.clear, pos := p.pos + t.text.length + 1 }) hdrop ht h.file
    ⟨rfl, rfl, rfl, rfl⟩
  refine ⟨p', ?_, hr, he⟩
  have hle : ¬p.xml.length ≤ p.pos := by omega
  simp [getNextElement, hle, pieces, openTag, hfind, hp', bind, Except.bind]

theorem parseElement_close {p' : Parser} (hf : p.xml_file = none) (h : parseElement p = .ok p') :
    p'.xml_file = none ∧ p'.xml = p.xml ∧ ∃ epos, p.xml.find 62 p.pos = some epos ∧ p'.pos = epos + 1 := by
  simp only [parseElement, pieces, hf, closeTag, Option.getD_none, List.length_nil] at h
  cases hfind : p.xml.find 62 p.pos with
  | none =>
    simp only [hfind] at h
    split at h
    next => simp [bind, Except.bind] at h
    next => simp [getXML, bind, Except.bind] at h
  | some epos =>
    simp only [hfind, bind, Except.bind] at h
    split at h
    next => simp at h
    next =>
      split at h
      next => simp at h
      next =>
        cases Except.ok.inj h
        exact ⟨rfl, rfl, epos, rfl, rfl⟩

theorem parseElement_pos {p' : Parser} (hf : p.xml_file = none) (h : parseElement p = .ok p') :
    p'.xml = p.xml ∧ p.pos < p'.pos ∧ p'.pos ≤ p.xml.length := by
  obtain ⟨-, hxml, epos, hfind, hpos⟩ := parseElement_close hf h
  obtain ⟨hle, hlt⟩ := find_bounds (by decide) hfind
  exact ⟨hxml, by omega, by omega⟩

/-- `getNextElement` finds nothing, or moves on in the text. -/
theorem getNextElement_pos {p' : Parser} {b : Bool} (hf : p.xml_file = none)
    (h : getNextElement p = .ok (b, p')) :
    p'.element.name = [] ∨ p'.xml = p.xml ∧ p.pos < p'.pos ∧ p'.pos ≤ p.xml.length := by
  have hend : ∀ q : Parser, q.xml_file = none → q.getXML = (false, { q with xml := [], pos := 0 }) := by
    intro q hq
    simp [getXML, hq]
  by_cases hp : p.xml.length ≤ p.pos
  · simp only [getNextElement, if_pos hp, hend, hf] at h
    cases Except.ok.inj h
    exact Or.inl rfl
  · simp only [getNextElement, if_neg hp, pieces, hf, openTag, Option.getD_none, List.length_nil] at h
    cases hfind : p.xml.find 60 p.pos with
    | none =>
      simp only [hfind, hend, bind, Except.bind] at h
      cases Except.ok.inj h
      exact Or.inl rfl
    | some pos =>
      have hle := (find_bounds (by decide) hfind).1
      simp only [hfind, bind, Except.bind, if_true] at h
      split at h
      next => simp at h
      next q hq =>
        cases Except.ok.inj h
        obtain ⟨hx, hlt, hpos⟩ := parseElement_pos rfl hq
        exact Or.inr ⟨hx, Nat.lt_of_le_of_lt hle (Nat.lt_of_succ_lt hlt), hpos⟩

/-- The first character that is not white space, up to the next tag. -/
theorem exists_dropWhile {text : Bytes} (rest : Bytes) (ht : ∀ c ∈ text, c ≠ 60) :
    ∃ c rest', (text ++ 60 :: rest).dropWhile isspace = c :: rest' ∧
      (!decide (c = 60)) = text.any (!isspace ·) := by
  induction text with
  | nil => exact ⟨60, rest, by simp [isspace], by simp⟩
  | cons c text ih =>
    by_cases hc : isspace c
    · obtain ⟨c', rest', hdrop, hany⟩ := ih fun x hx => ht x (by simp [hx])
      exact ⟨c', rest', by simpa [hc] using hdrop, by simpa [hc] using hany⟩
    · exact ⟨c, text ++ 60 :: rest, by simp [hc], by simp [hc, ht c (by simp)]⟩

/-- `hasContent` tells whether the text in front of the next tag is more than white space. -/
theorem hasContent_spec (h : Reads p (t :: ts) tail) (ht : PlainText t.text)
    (hc : p.element.content = []) (hcl : p.element.is_closing = false) :
    hasContent p = .ok (t.text.any (!isspace ·), p) := by
  have hlen : p.xml.length ≠ 0 := by have := h.pos_lt; omega
  obtain ⟨c, rest, hdrop, hany⟩ := exists_dropWhile (t.tag ++ 62 :: (render ts ++ tail))
    fun c hc => (ht c hc).1
  simp only [hasContent, hc, hcl, pieces, h.file]
  simp [contentLoop, hlen, h.rest_cons, hdrop, hany]

theorem hasContent_closing (hc : p.element.content = []) (hcl : p.element.is_closing = true) :
    hasContent p = .ok (false, p) := by
  simp [hasContent, hc, hcl]

/-- `getContent` takes the text and stays in front of the tag. -/
theorem getContent_spec (h : Reads p (t :: ts) tail) (ht : PlainText t.text) (hne : t.text ≠ [])
    (hc : p.element.content = []) :
    getContent p = .ok (t.text, { p with element := { p.element with content := t.text } }) := by
  have hfind : p.xml.find 60 p.pos = some (p.pos + t.text.length) := find_eq h.rest_cons (by decide) ht
  have hsub := substr_eq h.rest_cons hne
  simp [getContent, hc, pieces, parseContent, hfind, hsub, bind, Except.bind]

end Parser

end XML

end Srl
