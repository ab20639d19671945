import Srl.StrFind
import Srl.XmlTagSafe

namespace Srl

open Bytes Occurrences

namespace Bytes

theorem findText_eq_none_iff {s t : Bytes} (hs : ∀ c ∈ s, c ≠ 0) : s.findText t 0 = none ↔ ¬t <:+: s := by
  rw [findText_firstAt hs, Option.map_eq_none_iff, List.drop_zero, firstAt_eq_none_iff]

end Bytes

namespace XML

/-- The text with one space in place of every line break, `CRLF`, `LF` or `CR`. -/
def blanked : Bytes → Bytes
  | [] => []
  | c :: s =>
    if c = 13 ∧ s.head? = some 10 then blanked s
    else if c = 10 ∨ c = 13 then 32 :: blanked s
    else c :: blanked s

theorem crlf_cons {c : UInt8} {s : Bytes} :
    bytes "\r\n" <:+: c :: s ↔ (c = 13 ∧ s.head? = some 10) ∨ bytes "\r\n" <:+: s := by
  have hprefix : bytes "\r\n" <+: c :: s ↔ c = 13 ∧ s.head? = some 10 := by
    rw [show bytes "\r\n" = [13, 10] from rfl, List.cons_prefix_cons, eq_comm (a := (13 : UInt8))]
    cases s with
    | nil => simp
    | cons d s =>
      rw [List.cons_prefix_cons, List.head?_cons, Option.some.injEq, eq_comm (a := (10 : UInt8))]
      simp
  rw [List.infix_cons_iff, hprefix]

theorem length_blanked_le (s : Bytes) : (blanked s).length ≤ s.length := by
  induction s with
  | nil => exact Nat.le_refl 0
  | cons c s ih =>
    rw [blanked]
    split
    next => exact Nat.le_succ_of_le ih
    next => split <;> exact Nat.succ_le_succ ih

theorem length_blanked_lt {s : Bytes} (h : bytes "\r\n" <:+: s) : (blanked s).length < s.length := by
  induction s with
  | nil => exact absurd (List.infix_nil.mp h) (by decide)
  | cons c s ih =>
    rw [blanked]
    split
    next => exact Nat.lt_succ_of_le (length_blanked_le s)
    next hpair =>
      have hlt := ih ((crlf_cons.mp h).resolve_left hpair)
      split <;> exact Nat.succ_lt_succ hlt

theorem blanked_eq_map {s : Bytes} (h : ¬bytes "\r\n" <:+: s) :
    blanked s = s.map fun c => if c = 10 ∨ c = 13 then 32 else c := by
  induction s with
  | nil => rfl
  | cons c s ih =>
    obtain ⟨hpair, htail⟩ := not_or.mp (mt crlf_cons.mpr h)
    rw [blanked, if_neg hpair, ih htail, List.map_cons]
    split <;> rfl

namespace Parser

/-- Without a `CRLF` the three replacements do what they are there for. -/
theorem blankBreaks_eq {a : Bytes} (h0 : ∀ c ∈ a, c ≠ 0) (h : ¬bytes "\r\n" <:+: a) :
    blankBreaks a = .ok (blanked a) := by
  have hreplace : a.replace (bytes "\r\n") [] = some a := by
    rw [replace, replaceLoop, (findText_eq_none_iff h0).mpr h]
  have h10 : a.replaceChar 10 32 = a.map fun c => if c = 10 then 32 else c := replaceChar_eq_map h0 10 32
  have h1 : ∀ c ∈ a.replaceChar 10 32, c ≠ 0 := by
    intro c hc
    rw [h10] at hc
    obtain ⟨d, hd, rfl⟩ := List.mem_map.mp hc
    split
    next => decide
    next => exact h0 d hd
  rw [blankBreaks, hreplace]
  dsimp only
  rw [replaceChar_eq_map h1, h10, List.map_map, blanked_eq_map h]
  congr 1
  apply List.map_congr_left
  intro c hc
  rw [Function.comp_apply]
  by_cases hlf : c = 10
  · rw [hlf]
    rfl
  · rw [if_neg hlf]
    simp only [hlf, false_or]

theorem blankBreaks_settled {a : Bytes} (h : ¬LastingBreak a) : ∃ b, blankBreaks a = .ok b := by
  cases hb : blankBreaks a with
  | ok b => exact ⟨b, rfl⟩
  | error s =>
    have hfatal : s.Fatal := by
      unfold blankBreaks at hb
      split at hb
      next => cases hb
      next =>
        cases hb
        trivial
    exact absurd (blankBreaks_fatal.mp ⟨s, hb, hfatal⟩) h

theorem markedName_subset (text : Bytes) : ∀ c ∈ markedName text, c ∈ text := by
  intro c hc
  unfold markedName at hc
  split at hc
  next => exact List.mem_of_mem_drop hc
  next =>
    split at hc
    next => exact List.mem_of_mem_dropLast hc
    next =>
      split at hc
      next => exact List.mem_of_mem_drop (List.mem_of_mem_dropLast hc)
      next => exact hc

theorem attributeText_subset {name a : Bytes} (h0 : ∀ c ∈ name, c ≠ 0) (h : attributeText name = some a) :
    ∀ c ∈ a, c ∈ name := by
  intro c hc
  unfold attributeText at h
  split at h
  next =>
    obtain ⟨pos, -, rfl⟩ := Option.map_eq_some_iff.mp h
    rw [substrFrom_eq fun x hx => h0 x (List.mem_of_mem_drop hx)] at hc
    exact List.mem_of_mem_drop hc
  next => cases h

theorem splitAttributes_some {e : Element} {a : Bytes} (h : attributeText e.name = some a) :
    (splitAttributes e).map (·.attributes) = blankBreaks a := by
  unfold attributeText at h
  unfold splitAttributes
  cases hequals : e.name.find 61 0 with
  | none =>
    rw [hequals] at h
    cases h
  | some n =>
    cases n with
    | zero =>
      rw [hequals] at h
      cases h
    | succ n =>
      rw [hequals] at h
      obtain ⟨pos, hpos, rfl⟩ := Option.map_eq_some_iff.mp h
      dsimp only
      rw [hpos]
      dsimp only
      cases blankBreaks (e.name.substrFrom (pos + 1)) <;> rfl

theorem finishTag_some {e : Element} {a : Bytes} (h : attributeText (markedName e.name) = some a) (hq : e.name ≠ [63]) :
    (finishTag e).map (·.attributes) = blankBreaks a := by
  obtain ⟨e', he', hname⟩ := markElement_name hq
  rw [finishTag, he']
  exact splitAttributes_some (hname ▸ h)

/-- `_parseElement` on a tag that stands in the buffer as a whole. -/
theorem parseElement_here {p : Parser} {tag rest : Bytes} (htag : ∀ c ∈ tag, c ≠ 62 ∧ c ≠ 0)
    (hdrop : p.xml.drop p.pos = tag ++ 62 :: rest) :
    parseElement { p with element := p.element.clear } =
      (finishTag { p.element.clear with name := p.xml.substr p.pos tag.length }).map fun e =>
        { p with element := e, pos := p.pos + tag.length + 1 } := by
  have hfind : p.xml.find 62 p.pos = some (p.pos + tag.length) := find_eq hdrop (by decide) htag
  have hclose : closeTag (pieces { p with element := p.element.clear }) { p with element := p.element.clear } =
      .ok { p with element := { p.element.clear with name := p.xml.substr p.pos tag.length },
                   pos := p.pos + tag.length + 1 } := by
    rw [pieces, closeTag]
    dsimp only
    rw [hfind]
    dsimp only
    rw [Nat.add_sub_cancel_left]
    rfl
  rw [parseElement_eq, hclose]
  rfl

/-- A tag with attributes stores them with a space for every line break, and every tag is done with,
exactly if it is not just a question mark and no `CRLF` stands among the attributes; an empty tag,
which takes the rest of the buffer for its text, stops at a lasting break only. -/
theorem parseElement_breaks {p : Parser} {tag rest : Bytes} (htag : ∀ c ∈ tag, c ≠ 62 ∧ c ≠ 0)
    (hdrop : p.xml.drop p.pos = tag ++ 62 :: rest) :
    ((¬∃ s, parseElement { p with element := p.element.clear } = .error s ∧ s.Fatal) ∧
      ∀ a, attributeText (markedName tag) = some a →
        ∀ p', parseElement { p with element := p.element.clear } = .ok p' → p'.element.attributes = blanked a) ↔
    SafeTag (p.xml.substr p.pos tag.length) ∧
      ∀ a, attributeText (markedName tag) = some a → ¬bytes "\r\n" <:+: a := by
  have hfatal : (∃ s, parseElement { p with element := p.element.clear } = .error s ∧ s.Fatal) ↔
      ¬SafeTag (p.xml.substr p.pos tag.length) := by
    rw [parseElement_here htag hdrop, ← @finishTag_fatal { p.element.clear with name := p.xml.substr p.pos tag.length }]
    refine exists_congr fun s => and_congr_left fun _ => ⟨error_of_map, fun h => ?_⟩
    rw [h]
    rfl
  rw [hfatal, not_not]
  refine and_congr_right fun hsafe => forall_congr' fun a => forall_congr' fun ha => ?_
  have htext : p.xml.substr p.pos tag.length = tag := by
    refine substr_eq hdrop ?_
    rintro rfl
    cases ha
  rw [htext] at hsafe
  have h0 : ∀ c ∈ a, c ≠ 0 := fun c hc => by
    have hname : ∀ c ∈ markedName tag, c ≠ 0 := fun c hc => (htag c (markedName_subset tag c hc)).2
    exact hname c (attributeText_subset hname ha c hc)
  have hstored : (parseElement { p with element := p.element.clear }).map (·.element.attributes) = blankBreaks a := by
    rw [parseElement_here htag hdrop, htext, ← finishTag_some (e := { p.element.clear with name := tag }) ha hsafe.1]
    cases finishTag { p.element.clear with name := tag } <;> rfl
  constructor
  · intro hright hcrlf
    obtain ⟨b, hb⟩ := blankBreaks_settled (hsafe.2 a ha)
    cases hp : parseElement { p with element := p.element.clear } with
    | error s =>
      rw [hp, hb] at hstored
      cases hstored
    | ok p' =>
      rw [hp, hb] at hstored
      obtain rfl : p'.element.attributes = b := Except.ok.inj hstored
      have hlt := length_blanked_lt hcrlf
      rw [← hright p' hp, blankBreaks_length hb] at hlt
      exact absurd hlt (Nat.lt_irrefl _)
  · intro hcrlf p' hp'
    rw [hp', blankBreaks_eq h0 hcrlf] at hstored
    exact Except.ok.inj hstored

theorem parseElement_breaks_lf : ∃ p', parseElement { ofString (bytes "<t a='1'\n\rb='2'>") with pos := 1 } = .ok p' ∧
    p'.element.attributes = blanked (bytes "a='1'\n\rb='2'") := by
  have htext : attributeText (markedName (bytes "t a='1'\n\rb='2'")) = some (bytes "a='1'\n\rb='2'") := by decide
  have hrun : parseElement { ofString (bytes "<t a='1'\n\rb='2'>") with pos := 1 } =
      .ok ⟨⟨bytes "t", bytes "a='1'  b='2'", [], false, true, 0⟩, none, bytes "<t a='1'\n\rb='2'>", 16⟩ := by decide
  refine ⟨_, hrun, ((@parseElement_breaks { ofString (bytes "<t a='1'\n\rb='2'>") with pos := 1 }
    (bytes "t a='1'\n\rb='2'") [] (by decide) rfl).mpr ⟨⟨by decide, fun a ha => ?_⟩, fun a ha => ?_⟩).2 _ htext _ hrun⟩
  · obtain rfl := Option.some.inj (htext.symm.trans ha)
    rintro ⟨pos, hpos, -⟩
    rw [show findText (bytes "a='1'\n\rb='2'") (bytes "\r\n") 0 = none by decide] at hpos
    cases hpos
  · obtain rfl := Option.some.inj (htext.symm.trans ha)
    decide

/-- A `CRLF` between two attributes. -/
theorem not_parseElement_breaks : ¬∀ (p : Parser) (tag rest : Bytes), (∀ c ∈ tag, c ≠ 62 ∧ c ≠ 0) →
    p.xml.drop p.pos = tag ++ 62 :: rest →
    (¬∃ s, parseElement { p with element := p.element.clear } = .error s ∧ s.Fatal) ∧
      ∀ a, attributeText (markedName tag) = some a →
        ∀ p', parseElement { p with element := p.element.clear } = .ok p' → p'.element.attributes = blanked a := by
  intro h
  have hrun : parseElement { ofString (bytes "<t a='1'\r\nb='2'>") with pos := 1 } = .error .endless := by decide
  exact (h { ofString (bytes "<t a='1'\r\nb='2'>") with pos := 1 } (bytes "t a='1'\r\nb='2'") [] (by decide) rfl).1
    ⟨.endless, hrun, trivial⟩

end Parser

end XML

end Srl
