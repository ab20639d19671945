import Srl.XmlLineBreaks

namespace Srl

namespace XML

open Bytes

/-- `XML::Parser::Attribute`, with the data that its readers return. -/
structure Attribute where
  name : Bytes
  value : Bytes
  deriving DecidableEq, Repr

namespace Element

/-- The loop over the white space behind an `=`. -/
def skipBlanks (s : Bytes) (pos : Nat) : Nat := pos + ((s.drop pos).takeWhile isspace).length

/-- The loop that looks for the end of a value; 0 when there is none. -/
def valueEnd (s : Bytes) (pos : Nat) (end_char : UInt8) : Nat :=
  match (s.drop pos).findIdx? (· = end_char) with
  | some i => pos + i
  | none => 0

def getNextAttribute (e : Element) : Except Stop (Option Attribute × Element) :=
  if e.has_attributes ∧ e.apos < e.attributes.length then
    match e.attributes.find 61 e.apos with
    | none => .ok (none, e)
    | some spos =>
      let name := e.attributes.substr e.apos (spos - e.apos)
      let apos := skipBlanks e.attributes (spos + 1)
      if e.attributes.length ≤ apos then .error (.InvalidXML "failed to parse attribute value: '%s'" name)
      else
        let c := e.attributes.charAt apos
        let quoted := c = 39 || c = 34
        let end_char := if quoted then c else 32
        let apos := if quoted then apos + 1 else apos
        let epos := valueEnd e.attributes apos end_char
        if 0 < epos then
          let value := e.attributes.substr apos (epos - apos)
          .ok (some ⟨name, value⟩, { e with apos := if quoted then epos + 2 else epos + 1 })
        else if end_char ≠ 32 then .error (.InvalidXML "failed to find end to attribute value: '%s" name)
        else .ok (some ⟨name, e.attributes.substrFrom apos⟩, { e with apos := e.attributes.length })
  else .ok (none, e)

/-- What a number of consecutive calls of `getNextAttribute` returns. -/
def getAttributes : Nat → Element → Except Stop (List (Option Attribute))
  | 0, _ => .ok []
  | n + 1, e => do
    let r ← getNextAttribute e
    let rs ← getAttributes n r.2
    .ok (r.1 :: rs)

end Element

/-- An attribute as it stands in a tag, `name="value"` or `name='value'`. -/
structure QuotedAttribute extends Attribute where
  quote : UInt8
  quote_mem : quote = 34 ∨ quote = 39
  name_plain : ∀ c ∈ name, isspace c = false ∧ c ∉ bytes "='\"<>" ∧ c ≠ 0
  value_plain : ∀ c ∈ value, c ≠ quote ∧ c ∉ bytes "<>\r\n" ∧ c ≠ 0

namespace QuotedAttribute

def render (a : QuotedAttribute) : Bytes := a.name ++ 61 :: a.quote :: (a.value ++ [a.quote])

/-- Attributes with single spaces between them. -/
def renderAll (as : List QuotedAttribute) : Bytes := [32].intercalate (as.map render)

/-- What stands behind an attribute in front of others. -/
def behind : List QuotedAttribute → Bytes
  | [] => []
  | a :: as => 32 :: renderAll (a :: as)

/-- What the reader takes an attribute for: a name or a value without characters is the whole rest
of the text. -/
def readAs (a : QuotedAttribute) (rest : Bytes) : Attribute where
  name := if a.name = [] then a.render ++ rest else a.name
  value := if a.value = [] then a.quote :: rest else a.value

def readAll : List QuotedAttribute → List Attribute
  | [] => []
  | a :: as => a.readAs (behind as) :: readAll as

variable {a : QuotedAttribute} {as : List QuotedAttribute} {e : Element} {rest : Bytes}

theorem renderAll_cons (a : QuotedAttribute) (as : List QuotedAttribute) :
    renderAll (a :: as) = a.render ++ behind as := by
  cases as with
  | nil => rw [behind, List.append_nil, renderAll, List.map_singleton, List.intercalate_singleton]
  | cons b as =>
    rw [renderAll, List.map_cons, List.map_cons, List.intercalate_cons_cons, List.append_assoc]
    rfl

theorem readAs_eq_iff : a.readAs rest = a.toAttribute ↔ a.name ≠ [] ∧ a.value ≠ [] := by
  constructor
  · intro h
    refine ⟨?_, ?_⟩
    · intro hname
      have hread : a.render ++ rest = a.name := by
        have := congrArg Attribute.name h
        rwa [readAs, if_pos hname] at this
      rw [hname, render, hname] at hread
      cases hread
    · intro hvalue
      have hread : a.quote :: rest = a.value := by
        have := congrArg Attribute.value h
        rwa [readAs, if_pos hvalue] at this
      rw [hvalue] at hread
      cases hread
  · rintro ⟨hname, hvalue⟩
    rw [readAs, if_neg hname, if_neg hvalue]

theorem readAll_eq_iff : readAll as = as.map (·.toAttribute) ↔ ∀ a ∈ as, a.name ≠ [] ∧ a.value ≠ [] := by
  induction as with
  | nil => exact ⟨fun _ a ha => absurd ha List.not_mem_nil, fun _ => rfl⟩
  | cons a as ih => rw [readAll, List.map_cons, List.cons_eq_cons, readAs_eq_iff, ih, List.forall_mem_cons]

theorem quote_ne (a : QuotedAttribute) : a.quote ≠ 0 ∧ a.quote ≠ 32 ∧ isspace a.quote = false := by
  rcases a.quote_mem with h | h <;> rw [h] <;> decide

theorem render_ne_zero (a : QuotedAttribute) : ∀ c ∈ a.render, c ≠ 0 := by
  intro c hc
  simp only [render, List.mem_append, List.mem_cons, List.not_mem_nil, or_false] at hc
  rcases hc with hc | rfl | rfl | hc | rfl
  · exact (a.name_plain c hc).2.2
  · decide
  · exact a.quote_ne.1
  · exact (a.value_plain c hc).2.2
  · exact a.quote_ne.1

/-- What holds of a blank and of the characters of every attribute holds of the whole text. -/
theorem forall_mem_renderAll {P : UInt8 → Prop} (hblank : P 32) (h : ∀ a : QuotedAttribute, ∀ c ∈ a.render, P c)
    (as : List QuotedAttribute) : ∀ c ∈ renderAll as, P c := by
  induction as with
  | nil => exact fun c hc => absurd hc List.not_mem_nil
  | cons a as ih =>
    intro c hc
    rw [renderAll_cons, List.mem_append] at hc
    rcases hc with hc | hc
    · exact h a c hc
    · cases as with
      | nil => exact absurd hc List.not_mem_nil
      | cons b as =>
        rcases List.mem_cons.mp hc with rfl | hc
        · exact hblank
        · exact ih c hc

theorem renderAll_ne_zero (as : List QuotedAttribute) : ∀ c ∈ renderAll as, c ≠ 0 :=
  forall_mem_renderAll (by decide) render_ne_zero as

/-- The element stands in front of these attributes. -/
structure Unread (e : Element) (as : List QuotedAttribute) : Prop where
  has_attributes : e.has_attributes = true
  drop : e.attributes.drop e.apos = renderAll as

/-- An element behind its attribute `a`. -/
def skip (e : Element) (a : QuotedAttribute) : Element := { e with apos := e.apos + a.render.length + 1 }

theorem Unread.drop_cons (h : Unread e (a :: as)) :
    e.attributes.drop e.apos = a.name ++ 61 :: (a.quote :: (a.value ++ a.quote :: behind as)) := by
  rw [h.drop, renderAll_cons, render]
  simp

theorem Unread.next (h : Unread e (a :: as)) : Unread (skip e a) as := by
  refine ⟨h.has_attributes, ?_⟩
  have hdrop : e.attributes.drop (e.apos + a.render.length) = behind as :=
    drop_add_of_drop a.render (by rw [h.drop, renderAll_cons])
  show e.attributes.drop (e.apos + a.render.length + 1) = renderAll as
  rw [← List.drop_drop, hdrop]
  cases as <;> rfl

theorem Unread.length_le (h : Unread e []) : e.attributes.length ≤ e.apos := List.drop_eq_nil_iff.mp h.drop

theorem getNextAttribute_nil (h : Unread e []) : e.getNextAttribute = .ok (none, e) := by
  have hle := h.length_le
  rw [Element.getNextAttribute, if_neg fun hlt => absurd hlt.2 (by omega)]

theorem valueEnd_spec {s : Bytes} {pos : Nat} (h : s.drop pos = a.value ++ a.quote :: rest) :
    Element.valueEnd s pos a.quote = pos + a.value.length := by
  have hfind : (a.value ++ a.quote :: rest).findIdx? (· = a.quote) = some a.value.length := by
    rw [List.findIdx?_append, List.findIdx?_eq_none_iff.mpr fun c hc => by simp [(a.value_plain c hc).1]]
    simp [List.findIdx?_cons]
  rw [Element.valueEnd, h, hfind]

theorem getNextAttribute_cons (h : Unread e (a :: as)) :
    e.getNextAttribute = .ok (some (a.readAs (behind as)), skip e a) := by
  have hdrop := h.drop_cons
  have hnul : ∀ pos, ∀ c ∈ e.attributes.drop (e.apos + pos), c ≠ 0 := by
    intro pos c hc
    rw [← List.drop_drop, h.drop] at hc
    exact renderAll_ne_zero _ c (List.mem_of_mem_drop hc)
  have hfind : e.attributes.find 61 e.apos = some (e.apos + a.name.length) :=
    find_eq hdrop (by decide) fun c hc =>
      ⟨fun he => (a.name_plain c hc).2.1 (he ▸ by decide), (a.name_plain c hc).2.2⟩
  have hequals : e.attributes.drop (e.apos + a.name.length + 1) = a.quote :: (a.value ++ a.quote :: behind as) :=
    Parser.drop_succ_of_drop hdrop
  have hquote : e.attributes.drop (e.apos + a.name.length + 1 + 1) = a.value ++ a.quote :: behind as := by
    rw [← List.drop_drop, hequals]
    rfl
  have hblanks : Element.skipBlanks e.attributes (e.apos + a.name.length + 1) = e.apos + a.name.length + 1 := by
    rw [Element.skipBlanks, hequals, List.takeWhile_cons_of_neg (by rw [a.quote_ne.2.2]; exact Bool.false_ne_true)]
    rfl
  have hchar : e.attributes.charAt (e.apos + a.name.length + 1) = a.quote := by
    have hget := congrArg List.head? hequals
    rw [List.head?_drop] at hget
    rw [charAt, List.getD_eq_getElem?_getD, hget]
    rfl
  have hlt : e.apos + a.name.length + 1 < e.attributes.length := by
    by_contra hle
    rw [List.drop_eq_nil_of_le (by omega)] at hequals
    cases hequals
  have hname : e.attributes.substr e.apos a.name.length = if a.name = [] then a.render ++ behind as else a.name := by
    rw [substr_eq_or hdrop (List.cons_ne_nil _ _) (hnul 0), h.drop, renderAll_cons]
  have hvalue : e.attributes.substr (e.apos + a.name.length + 1 + 1) a.value.length =
      if a.value = [] then a.quote :: behind as else a.value := by
    rw [substr_eq_or hquote (List.cons_ne_nil _ _) (hnul (a.name.length + 1 + 1)), hquote]
    split
    next hnil => rw [hnil, List.nil_append]
    next => rfl
  have hquoted : (decide (a.quote = 39) || decide (a.quote = 34)) = true := by
    rcases a.quote_mem with hq | hq <;> rw [hq] <;> rfl
  have hend : e.apos + a.name.length + 1 + 1 + a.value.length + 2 = e.apos + a.render.length + 1 := by
    simp only [render, List.length_append, List.length_cons, List.length_nil]
    omega
  rw [Element.getNextAttribute, if_pos ⟨h.has_attributes, by omega⟩, hfind]
  dsimp only
  rw [hblanks, if_neg (by omega), hchar, hquoted]
  simp only [if_true]
  rw [valueEnd_spec hquote, if_pos (by omega), Nat.add_sub_cancel_left, Nat.add_sub_cancel_left, hname, hvalue, hend]
  rfl

theorem getAttributes_spec (h : Unread e as) :
    e.getAttributes (as.length + 1) = .ok ((readAll as).map some ++ [none]) := by
  induction as generalizing e with
  | nil =>
    rw [Element.getAttributes, getNextAttribute_nil h]
    rfl
  | cons a as ih =>
    rw [List.length_cons, Element.getAttributes, getNextAttribute_cons h]
    show (do
      let rs ← (skip e a).getAttributes (as.length + 1)
      Except.ok (some (a.readAs (behind as)) :: rs)) = _
    rw [ih h.next]
    rfl

theorem render_plain (a : QuotedAttribute) : ∀ c ∈ a.render, c ≠ 10 ∧ c ≠ 13 ∧ c ≠ 62 := by
  have hquote : a.quote ≠ 10 ∧ a.quote ≠ 13 ∧ a.quote ≠ 62 := by
    rcases a.quote_mem with h | h <;> rw [h] <;> decide
  intro c hc
  simp only [render, List.mem_append, List.mem_cons, List.not_mem_nil, or_false] at hc
  rcases hc with hc | rfl | rfl | hc | rfl
  · obtain ⟨hspace, hmem, -⟩ := a.name_plain c hc
    exact ⟨fun h => by simp [h, isspace] at hspace, fun h => by
      simp [h, isspace] at hspace, fun h => hmem (h ▸ by decide)⟩
  · decide
  · exact hquote
  · obtain ⟨-, hmem, -⟩ := a.value_plain c hc
    exact ⟨fun h => hmem (h ▸ by decide), fun h => hmem (h ▸ by decide), fun h => hmem (h ▸ by decide)⟩
  · exact hquote

theorem renderAll_plain (as : List QuotedAttribute) : ∀ c ∈ renderAll as, c ≠ 10 ∧ c ≠ 13 ∧ c ≠ 62 :=
  forall_mem_renderAll (by decide) render_plain as

theorem getLast_renderAll (has : as ≠ []) : ∃ q, q ≠ 47 ∧ (renderAll as).getLast? = some q := by
  induction as with
  | nil => exact absurd rfl has
  | cons a as ih =>
    rw [renderAll_cons]
    cases as with
    | nil =>
      refine ⟨a.quote, ?_, ?_⟩
      · rcases a.quote_mem with h | h <;> rw [h] <;> decide
      · have hconcat : a.render = (a.name ++ 61 :: a.quote :: a.value) ++ [a.quote] := by simp [render]
        rw [behind, List.append_nil, hconcat, List.getLast?_concat]
    | cons b as =>
      obtain ⟨q, hq, hlast⟩ := ih (List.cons_ne_nil _ _)
      refine ⟨q, hq, ?_⟩
      rw [behind, List.getLast?_append, List.getLast?_cons, hlast]
      rfl

end QuotedAttribute

/-- A name that can stand in front of attributes. -/
def TagName (name : Bytes) : Prop := PlainName name ∧ 32 ∉ name

instance (name : Bytes) : Decidable (TagName name) := by unfold TagName; infer_instance

namespace Parser

open QuotedAttribute

variable {as : List QuotedAttribute} {name : Bytes}

/-- The text of a tag with attributes. -/
def attributesTag (name : Bytes) (as : List QuotedAttribute) : Bytes := name ++ 32 :: renderAll as

theorem attributesTag_plain (hname : TagName name) : ∀ c ∈ attributesTag name as, c ≠ 62 ∧ c ≠ 0 := by
  intro c hc
  rcases List.mem_append.mp hc with hc | hc
  · exact ⟨(hname.1.2.1 c hc).1, (hname.1.2.1 c hc).2.1⟩
  · rcases List.mem_cons.mp hc with rfl | hc
    · decide
    · exact ⟨(renderAll_plain as c hc).2.2, renderAll_ne_zero as c hc⟩

theorem markElement_attributes {e : Element} (hname : TagName name) (has : as ≠ [])
    (he : e.name = attributesTag name as) :
    markElement e = .ok { e with is_closing := false } := by
  obtain ⟨⟨hne, hplain, hslash, hquery, -⟩, -⟩ := hname
  obtain ⟨q, hq, hlast⟩ := getLast_renderAll has
  obtain ⟨c, cs, rfl⟩ := List.exists_cons_of_ne_nil hne
  have hlast' : e.name.getLast? = some q := by
    rw [he, attributesTag, List.getLast?_append, List.getLast?_cons, hlast]
    rfl
  have hhead : e.name.charAt 0 = c := by
    rw [he]
    rfl
  have hc47 : c ≠ 47 := fun h => hslash (congrArg some h)
  have hc63 : c ≠ 63 := fun h => hquery (congrArg some h)
  rw [markElement, hhead, hlast', if_neg hc47, if_neg fun h => hq (Option.some.inj h), if_neg hc63]

theorem splitAttributes_attributes {e : Element} (hname : TagName name) (has : as ≠ [])
    (he : e.name = attributesTag name as) :
    splitAttributes e = .ok { e with has_attributes := true, attributes := renderAll as, name := name } := by
  have h0 : ∀ c ∈ e.name, c ≠ 0 := fun c hc => (attributesTag_plain hname c (he ▸ hc)).2
  have hmem : 61 ∈ e.name := by
    obtain ⟨a, as, rfl⟩ := List.exists_cons_of_ne_nil has
    rw [he, attributesTag, renderAll_cons, QuotedAttribute.render]
    simp
  obtain ⟨pre, post, hequals, hpre⟩ := List.eq_append_cons_of_mem hmem
  have hpos : ∃ n, pre.length = n + 1 := by
    refine Nat.exists_eq_succ_of_ne_zero fun hz => ?_
    obtain ⟨c, cs, rfl⟩ := List.exists_cons_of_ne_nil hname.1.1
    rw [he, List.eq_nil_of_length_eq_zero hz, attributesTag, List.cons_append] at hequals
    exact (hname.1.2.1 c List.mem_cons_self).2.2 (List.cons.inj hequals).1
  obtain ⟨n, hn⟩ := hpos
  have hblank := find_zero h0 (by decide) he hname.2
  have hrest : e.name.substrFrom (name.length + 1) = renderAll as := by
    rw [substrFrom_eq fun c hc => h0 c (List.mem_of_mem_drop hc), he, attributesTag, ← List.drop_drop, List.drop_left]
    rfl
  have htake : e.name.take name.length = name := by rw [he, attributesTag, List.take_left]
  have hbreaks : blankBreaks (renderAll as) = .ok (renderAll as) := by
    have hcrlf : ¬bytes "\r\n" <:+: renderAll as := fun h =>
      (renderAll_plain as 13 (h.subset (by decide))).2.1 rfl
    rw [blankBreaks_eq (renderAll_ne_zero as) hcrlf, blanked_eq_map hcrlf]
    congr 1
    conv_rhs => rw [← List.map_id (renderAll as)]
    apply List.map_congr_left
    intro c hc
    obtain ⟨h10, h13, -⟩ := renderAll_plain as c hc
    rw [if_neg (not_or.mpr ⟨h10, h13⟩), id]
  rw [splitAttributes, find_zero h0 (by decide) hequals hpre, hn]
  dsimp only
  rw [hblank]
  dsimp only
  rw [hrest, hbreaks, htake]
  rfl

theorem getNextElement_attributes {p : Parser} {text rest : Bytes} (hname : TagName name) (has : as ≠ [])
    (htext : PlainText text) (hdrop : p.xml.drop p.pos = text ++ 60 :: (attributesTag name as ++ 62 :: rest)) :
    ∃ p', getNextElement p = .ok (true, p') ∧ p'.element = ⟨name, renderAll as, [], false, true, 0⟩ := by
  have hopen : p.xml.find 60 p.pos = some (p.pos + text.length) := find_eq hdrop (by decide) htext
  have htag : p.xml.drop (p.pos + text.length + 1) = attributesTag name as ++ 62 :: rest := drop_succ_of_drop hdrop
  have hclose := find_eq htag (by decide) (attributesTag_plain hname)
  have hsubstr : p.xml.substr (p.pos + text.length + 1) (attributesTag name as).length = attributesTag name as :=
    substr_eq htag (by simp [attributesTag])
  rw [getNextElement_here hopen hclose, Nat.add_sub_cancel_left, hsubstr, finishTag,
    markElement_attributes hname has rfl]
  show ∃ p', (splitAttributes _).map _ = _ ∧ _
  rw [splitAttributes_attributes hname has rfl]
  exact ⟨_, rfl, rfl⟩

/-- The attributes of a tag are read in their order, with `NULL` behind the last one, exactly if none has
an empty name or an empty value. -/
theorem getNextAttribute_all {p : Parser} {text rest : Bytes} (hname : TagName name) (has : as ≠ [])
    (htext : PlainText text) (hdrop : p.xml.drop p.pos = text ++ 60 :: (attributesTag name as ++ 62 :: rest)) :
    ∃ p', getNextElement p = .ok (true, p') ∧
      (p'.element.getAttributes (as.length + 1) = .ok (as.map (fun a => some a.toAttribute) ++ [none]) ↔
        ∀ a ∈ as, a.name ≠ [] ∧ a.value ≠ []) := by
  obtain ⟨p', hp', he⟩ := getNextElement_attributes hname has htext hdrop
  refine ⟨p', hp', ?_⟩
  rw [he, getAttributes_spec ⟨rfl, rfl⟩, ← readAll_eq_iff]
  have hmap : as.map (fun a => some a.toAttribute) = (as.map (·.toAttribute)).map some := by
    rw [List.map_map]
    rfl
  rw [hmap]
  constructor
  · intro h
    have hread := List.append_cancel_right (Except.ok.inj h)
    exact List.map_injective_iff.mpr (Option.some_injective _) hread
  · intro h
    rw [h]

theorem getNextAttribute_all_quotes : ∃ p', getNextElement (ofString (bytes "<t a='x=\"y z\"' b=\"1\">")) =
    .ok (true, p') ∧
    p'.element.getAttributes 3 =
      .ok [some ⟨bytes "a", bytes "x=\"y z\""⟩, some ⟨bytes "b", bytes "1"⟩, none] := by
  obtain ⟨p', hp', hread⟩ := @getNextAttribute_all
    [⟨⟨bytes "a", bytes "x=\"y z\""⟩, 39, .inr rfl, by decide, by decide⟩,
      ⟨⟨bytes "b", bytes "1"⟩, 34, .inl rfl, by decide, by decide⟩]
    (bytes "t") (ofString (bytes "<t a='x=\"y z\"' b=\"1\">")) [] [] (by decide) (List.cons_ne_nil _ _) (by decide) rfl
  refine ⟨p', hp', hread.mpr ?_⟩
  simp [bytes]

/-- The empty value of `a` is read as the whole rest of the tag. -/
theorem not_getNextAttribute_all : ¬∀ (p : Parser) (text name rest : Bytes) (as : List QuotedAttribute), TagName name →
    as ≠ [] → PlainText text → p.xml.drop p.pos = text ++ 60 :: (attributesTag name as ++ 62 :: rest) →
    ∃ p', getNextElement p = .ok (true, p') ∧
      p'.element.getAttributes (as.length + 1) = .ok (as.map (fun a => some a.toAttribute) ++ [none]) := by
  intro h
  obtain ⟨p', hp', hread⟩ := h (ofString (bytes "<t a=\"\">")) [] (bytes "t") []
    [⟨⟨bytes "a", []⟩, 34, .inl rfl, by decide, by decide⟩] (by decide) (List.cons_ne_nil _ _) (by decide) rfl
  have hrun : getNextElement (ofString (bytes "<t a=\"\">")) =
      .ok (true, ⟨⟨bytes "t", bytes "a=\"\"", [], false, true, 0⟩, none, bytes "<t a=\"\">", 8⟩) := by decide
  obtain rfl := (Prod.mk.inj (Except.ok.inj (hrun.symm.trans hp'))).2
  revert hread
  decide

end Parser

end XML

end Srl
