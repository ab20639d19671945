import Srl.XmlTagText
import Mathlib.Data.List.Infix

namespace Srl

open Bytes

namespace Bytes

variable {s t : Bytes} {pos i fuel : Nat}

theorem isPrefix_cstr (s : Bytes) : cstr s <+: s := List.takeWhile_prefix _

theorem findText_some (h : s.findText t pos = some i) : pos ≤ i ∧ t <+: s.drop i := by
  rw [findText] at h
  obtain ⟨j, hj, rfl⟩ := Option.map_eq_some_iff.mp h
  obtain ⟨hlt, hprefix, -⟩ := List.findIdx?_eq_some_iff_getElem.mp hj
  rw [List.getElem_tails, List.isPrefixOf_iff_prefix] at hprefix
  refine ⟨Nat.le_add_right _ _, hprefix.trans ?_⟩
  rw [← List.drop_drop]
  exact (isPrefix_cstr _).drop j

/-- A text that starts where the search does. -/
theorem findText_here (ht : ∀ c ∈ t, c ≠ 0) (h : t <+: s.drop pos) : s.findText t pos = some pos := by
  obtain ⟨rest, hrest⟩ := h
  have htails : t.isPrefixOf (t ++ cstr rest) = true := List.isPrefixOf_iff_prefix.mpr (List.prefix_append _ _)
  rw [findText, ← hrest, cstr_append_of_ne ht]
  cases hcs : t ++ cstr rest with
  | nil =>
    rw [hcs] at htails
    rw [List.tails, List.findIdx?_cons, if_pos htails]
    rfl
  | cons c cs =>
    rw [hcs] at htails
    rw [List.tails, List.findIdx?_cons, if_pos htails]
    rfl

theorem findText_short (h : (cstr (s.drop pos)).length < t.length) : s.findText t pos = none := by
  rw [findText, Option.map_eq_none_iff, List.findIdx?_eq_none_iff]
  intro u hu
  rw [Bool.eq_false_iff]
  intro hprefix
  have hle := (List.isPrefixOf_iff_prefix.mp hprefix).length_le
  have hsuffix := ((List.mem_tails _ _).mp hu).length_le
  omega

theorem length_cstr_le (h : s[i]? = some 0) : (cstr s).length ≤ i := by
  by_contra hgt
  have hlt : i < (cstr s).length := Nat.lt_of_not_le hgt
  have hget : s[i]? = some (cstr s)[i] := List.prefix_iff_getElem?.mp (isPrefix_cstr s) i hlt
  have hmem : (cstr s)[i] ∈ cstr s := List.getElem_mem hlt
  have hne := List.mem_takeWhile_imp hmem
  rw [h] at hget
  exact of_decide_eq_true hne (Option.some.inj hget).symm

theorem replaceFrom_nil (hs : s ≠ []) (pos len : Nat) : s.replaceFrom pos len [] = s.set (s.length - len) 0 := by
  rw [replaceFrom, if_neg hs]
  rfl

/-- Its replacement by nothing leaves a text that is as far from the end as it is long. -/
theorem replaceLoop_endless (ht : ∀ c ∈ t, c ≠ 0) (hpos : pos + 2 * t.length ≤ s.length) (h : t <+: s.drop pos) :
    replaceLoop t [] fuel s pos = none := by
  induction fuel generalizing s with
  | zero => rfl
  | succ fuel ih =>
    rw [replaceLoop, findText_here ht h]
    show replaceLoop t [] fuel (s.replaceFrom pos t.length []) pos = none
    by_cases hs : s = []
    · subst hs
      exact ih hpos h
    · rw [replaceFrom_nil hs]
      refine ih (by rw [List.length_set]; exact hpos) ?_
      rw [List.prefix_iff_getElem?]
      intro i hi
      have hne : s.length - t.length ≠ pos + i := by omega
      rw [List.getElem?_drop, List.getElem?_set_ne hne, ← List.getElem?_drop]
      exact List.prefix_iff_getElem?.mp h i hi

/-- A text near the end loses its last characters to the terminator. -/
theorem replace_nil_iff (ht : ∀ c ∈ t, c ≠ 0) (hne : t ≠ []) :
    s.replace t [] = none ↔ ∃ pos, s.findText t 0 = some pos ∧ pos + 2 * t.length ≤ s.length := by
  have htpos := List.length_pos_of_ne_nil hne
  rw [replace]
  constructor
  · intro hnone
    rw [replaceLoop] at hnone
    cases hfind : s.findText t 0 with
    | none =>
      rw [hfind] at hnone
      cases hnone
    | some pos =>
      refine ⟨pos, rfl, ?_⟩
      by_contra hlt
      have hprefix := (findText_some hfind).2
      have hlen := hprefix.length_le
      rw [List.length_drop] at hlen
      have hs : s ≠ [] := List.ne_nil_of_length_pos (by omega)
      rw [hfind] at hnone
      obtain ⟨fuel, hfuel⟩ := Nat.exists_eq_succ_of_ne_zero (Nat.ne_of_gt (List.length_pos_of_ne_nil hs))
      rw [hfuel, Nat.succ_eq_add_one] at hnone
      have hcut : ((s.set (s.length - t.length) 0).drop pos)[s.length - t.length - pos]? = some 0 := by
        rw [List.getElem?_drop, Nat.add_sub_cancel' (by omega), List.getElem?_set_self (by omega)]
      have hle := length_cstr_le hcut
      have hshort : findText (s.set (s.length - t.length) 0) t pos = none := findText_short (by omega)
      dsimp only at hnone
      rw [replaceFrom_nil hs, replaceLoop, hshort] at hnone
      cases hnone
  · rintro ⟨pos, hfind, hpos⟩
    rw [replaceLoop, hfind]
    show replaceLoop t [] s.length (s.replaceFrom pos t.length []) pos = none
    have hprefix := (findText_some hfind).2
    have hrun := @replaceLoop_endless s t pos (s.length + 1) ht hpos hprefix
    rw [replaceLoop, findText_here ht hprefix] at hrun
    exact hrun

end Bytes

namespace XML

/-- The stops that no handler of exceptions catches. -/
def Stop.Fatal : Stop → Prop
  | .InvalidXML _ _ => False
  | .endless | .fault => True

namespace Parser

/-- A line break that its replacement by nothing leaves where it is: more than one character stands
behind it. -/
def LastingBreak (attributes : Bytes) : Prop :=
  ∃ pos, attributes.findText (bytes "\r\n") 0 = some pos ∧ pos + 3 < attributes.length

/-- The name of a tag without its slash or question marks. -/
def markedName (text : Bytes) : Bytes :=
  if text.charAt 0 = 47 then text.drop 1
  else if text.getLast? = some 47 then text.dropLast
  else if text.charAt 0 = 63 then (text.drop 1).dropLast
  else text

/-- The attributes that are cut off a name. -/
def attributeText (name : Bytes) : Option Bytes :=
  match name.find 61 0 with
  | some (_ + 1) => (name.find 32 0).map fun pos => name.substrFrom (pos + 1)
  | _ => none

/-- The text of a tag that is not just a question mark, and whose attributes have no lasting line break. -/
def SafeTag (text : Bytes) : Prop := text ≠ [63] ∧ ∀ a, attributeText (markedName text) = some a → ¬LastingBreak a

/-- The text of the tag that `getNextElement` comes to in a string. -/
def nextTag (p : Parser) : Option Bytes := do
  let pos ← p.xml.find 60 p.pos
  let epos ← p.xml.find 62 (pos + 1)
  some (p.xml.substr (pos + 1) (epos - (pos + 1)))

theorem blankBreaks_fatal {a : Bytes} : (∃ s, blankBreaks a = .error s ∧ s.Fatal) ↔ LastingBreak a := by
  have hiff : a.replace (bytes "\r\n") [] = none ↔ LastingBreak a := by
    rw [replace_nil_iff (by decide) (by decide)]
    exact exists_congr fun pos => and_congr_right fun _ => Nat.lt_iff_add_one_le.symm
  rw [← hiff, blankBreaks]
  cases a.replace (bytes "\r\n") [] with
  | none => exact ⟨fun _ => rfl, fun _ => ⟨.endless, rfl, trivial⟩⟩
  | some s => exact ⟨nofun, nofun⟩

theorem splitAttributes_fatal {e : Element} :
    (∃ s, splitAttributes e = .error s ∧ s.Fatal) ↔ ∃ a, attributeText e.name = some a ∧ LastingBreak a := by
  unfold splitAttributes attributeText
  cases e.name.find 61 0 with
  | none => exact ⟨nofun, nofun⟩
  | some n =>
    cases n with
    | zero => exact ⟨nofun, nofun⟩
    | succ n =>
      dsimp only
      cases e.name.find 32 0 with
      | none =>
        refine ⟨?_, nofun⟩
        rintro ⟨s, hs, hfatal⟩
        cases hs
        exact hfatal.elim
      | some pos =>
        rw [Option.map_some]
        constructor
        · rintro ⟨s, hs, hfatal⟩
          refine ⟨_, rfl, blankBreaks_fatal.mp ⟨s, ?_, hfatal⟩⟩
          cases hb : blankBreaks (e.name.substrFrom (pos + 1)) with
          | error s' =>
            simp only [hb] at hs
            cases hs
            rfl
          | ok b =>
            simp only [hb] at hs
            cases hs
        · rintro ⟨a, ha, hlasting⟩
          obtain rfl := Option.some.inj ha
          obtain ⟨s, hs, hfatal⟩ := blankBreaks_fatal.mpr hlasting
          exact ⟨s, by simp only [hs]; rfl, hfatal⟩

theorem markElement_fault {e : Element} (h : e.name = [63]) : markElement e = .error .fault := by
  rw [markElement, h]
  rfl

theorem markElement_name {e : Element} (h : e.name ≠ [63]) : ∃ e', markElement e = .ok e' ∧
    e'.name = markedName e.name := by
  unfold markElement markedName
  split
  next => exact ⟨_, rfl, rfl⟩
  next =>
    split
    next => exact ⟨_, rfl, rfl⟩
    next =>
      split
      next hmark =>
        have hlen : e.name.length ≠ 1 := by
          intro hone
          obtain ⟨c, hc⟩ := List.length_eq_one_iff.mp hone
          rw [hc] at hmark
          exact h (hc.trans (congrArg (fun c => [c]) hmark))
        rw [if_neg hlen]
        exact ⟨_, rfl, rfl⟩
      next => exact ⟨_, rfl, rfl⟩

theorem finishTag_fatal {e : Element} : (∃ s, finishTag e = .error s ∧ s.Fatal) ↔ ¬SafeTag e.name := by
  unfold finishTag SafeTag
  by_cases hmark : e.name = [63]
  · rw [markElement_fault hmark]
    exact ⟨fun _ h => h.1 hmark, fun _ => ⟨.fault, rfl, trivial⟩⟩
  · obtain ⟨e', he', hname⟩ := markElement_name hmark
    rw [he', ← hname]
    show (∃ s, splitAttributes e' = .error s ∧ s.Fatal) ↔ _
    rw [splitAttributes_fatal]
    constructor
    · rintro ⟨a, ha, hlasting⟩ ⟨-, hsafe⟩
      exact hsafe a ha hlasting
    · intro hbad
      by_contra hnone
      exact hbad ⟨hmark, fun a ha hlasting => hnone ⟨a, ha, hlasting⟩⟩

variable {p p' : Parser} {b : Bool}

/-- A tag that stands in the buffer as a whole is read from there. -/
theorem getNextElement_here {pos epos : Nat} (hopen : p.xml.find 60 p.pos = some pos)
    (hclose : p.xml.find 62 (pos + 1) = some epos) :
    getNextElement p =
      (finishTag { p.element.clear with name := p.xml.substr (pos + 1) (epos - (pos + 1)) }).map fun e =>
        (true, { p with element := e, pos := epos + 1 }) := by
  have hlt : ¬p.xml.length ≤ p.pos := by
    have := find_bounds (by decide) hopen
    omega
  have hpieces : ∀ q : Parser, q.pieces = (q.xml_file.getD []).length + 1 := fun q => rfl
  have hfound : ∀ (q : Parser) (epos : Nat), q.xml.find 62 q.pos = some epos → closeTag q.pieces q =
      .ok { q with element := { q.element with name := q.element.name ++ q.xml.substr q.pos (epos - q.pos) },
                   pos := epos + 1 } := by
    intro q epos hepos
    rw [hpieces q, closeTag, hepos]
  rw [getNextElement]
  dsimp only
  rw [if_neg hlt]
  dsimp only
  rw [hpieces, openTag]
  dsimp only
  rw [hopen]
  show (do
    let p ← parseElement { p with element := p.element.clear, pos := pos + 1 }
    Except.ok (true, p)) = _
  rw [parseElement_eq, hfound { p with element := p.element.clear, pos := pos + 1 } epos hclose]
  have hmap : ∀ x : Except Stop Element,
      ((x.map fun e => ({ p with element := e, pos := epos + 1 } : Parser)).bind fun p => .ok (true, p)) =
        x.map fun e => (true, { p with element := e, pos := epos + 1 }) := by
    intro x
    cases x <;> rfl
  exact hmap _

/-- `getNextElement` on a string, which has nothing to read behind its end. -/
theorem getNextElement_string (hf : p.xml_file = none) :
    getNextElement p = match p.xml.find 60 p.pos with
      | none => .ok (false, { p with element := p.element.clear, xml := [], pos := 0 })
      | some pos => match p.xml.find 62 (pos + 1) with
        | none =>
          let name := p.xml.substrFrom (pos + 1)
          .error (if name.length > 124 then .InvalidXML "tag name exceeds allowed length: '%s'" name
            else .InvalidXML "can not find end to tag: '%s'" name)
        | some epos =>
          (finishTag { p.element.clear with name := p.xml.substr (pos + 1) (epos - (pos + 1)) }).map fun e =>
            (true, { p with element := e, pos := epos + 1 }) := by
  have hget : ∀ (e : Element) (pos : Nat),
      getXML { p with element := e, pos := pos } = (false, { p with element := e, xml := [], pos := 0 }) := by
    intro e pos
    simp [getXML, hf]
  have hpieces : ∀ q : Parser, q.xml_file = none → q.pieces = 1 := fun q hq => by rw [pieces, hq]; rfl
  by_cases hle : p.xml.length ≤ p.pos
  · have hnone : p.xml.find 60 p.pos = none := by
      rw [find, if_neg (by decide), List.drop_eq_nil_of_le hle]
      rfl
    rw [hnone, getNextElement]
    dsimp only
    rw [if_pos hle, hget p.element.clear p.pos]
  · have hmissing : ∀ q : Parser, q.xml_file = none → q.xml.find 62 q.pos = none → closeTag q.pieces q =
        .error (if (q.element.name ++ q.xml.substrFrom q.pos).length > 124 then
          .InvalidXML "tag name exceeds allowed length: '%s'" (q.element.name ++ q.xml.substrFrom q.pos)
          else .InvalidXML "can not find end to tag: '%s'" (q.element.name ++ q.xml.substrFrom q.pos)) := by
      intro q hq hnone
      rw [hpieces q hq, closeTag, hnone]
      dsimp only
      split
      next => rfl
      next =>
        have hqget : ∀ e : Element, getXML { q with element := e } =
          (false, { q with element := e, xml := [], pos := 0 }) := by
          intro e
          simp [getXML, hq]
        rw [hqget]
    cases hopen : p.xml.find 60 p.pos with
    | none =>
      rw [getNextElement]
      dsimp only
      rw [if_neg hle]
      dsimp only
      rw [hpieces { p with element := p.element.clear } hf, openTag]
      dsimp only
      rw [hopen]
      dsimp only
      rw [hget p.element.clear p.pos]
      rfl
    | some pos =>
      cases hclose : p.xml.find 62 (pos + 1) with
      | none =>
        rw [getNextElement]
        dsimp only
        rw [if_neg hle]
        dsimp only
        rw [hpieces { p with element := p.element.clear } hf, openTag]
        dsimp only
        rw [hopen]
        show (do
          let p ← parseElement { p with element := p.element.clear, pos := pos + 1 }
          Except.ok (true, p)) = _
        rw [parseElement_eq, hmissing { p with element := p.element.clear, pos := pos + 1 } hf hclose, hclose]
        rfl
      | some epos =>
        dsimp only
        rw [hclose]
        exact getNextElement_here hopen hclose

theorem error_of_map {α β : Type} {x : Except Stop α} {f : α → β} {s : Stop} (h : x.map f = .error s) :
    x = .error s := by
  cases x with
  | error s' =>
    cases h
    rfl
  | ok a => cases h

theorem getNextElement_fatal (hf : p.xml_file = none) :
    (∃ s, getNextElement p = .error s ∧ s.Fatal) ↔ ∃ text, nextTag p = some text ∧ ¬SafeTag text := by
  rw [getNextElement_string hf, nextTag]
  cases p.xml.find 60 p.pos with
  | none => exact ⟨nofun, nofun⟩
  | some pos =>
    dsimp only [Option.bind_eq_bind, Option.bind_some]
    cases p.xml.find 62 (pos + 1) with
    | none =>
      refine ⟨?_, nofun⟩
      rintro ⟨s, hs, hfatal⟩
      cases hs
      split at hfatal <;> exact hfatal.elim
    | some epos =>
      dsimp only [Option.bind_some]
      have hfinish := @finishTag_fatal { p.element.clear with name := p.xml.substr (pos + 1) (epos - (pos + 1)) }
      constructor
      · rintro ⟨s, hs, hfatal⟩
        refine ⟨_, rfl, hfinish.mp ⟨s, ?_, hfatal⟩⟩
        exact error_of_map hs
      · rintro ⟨text, htext, hbad⟩
        obtain rfl := Option.some.inj htext
        obtain ⟨s, hs, hfatal⟩ := hfinish.mpr hbad
        exact ⟨s, by rw [hs]; rfl, hfatal⟩

/-- Whether there is an element depends on the next `<`; one that is found takes something from the text. -/
theorem nextElement_ok (hf : p.xml_file = none) (h : getNextElement p = .ok (b, p')) :
    p'.xml_file = none ∧ (b = true ↔ p.xml.find 60 p.pos ≠ none) ∧ p'.left ≤ p.left ∧
      (b = true → p'.left < p.left) := by
  have hleft : ∀ q : Parser, q.xml_file = none → q.left = q.xml.length - q.pos := fun q hq => by
    rw [left, hq]
    rfl
  rw [getNextElement_string hf] at h
  cases hopen : p.xml.find 60 p.pos with
  | none =>
    rw [hopen] at h
    cases h
    have hnew : left { p with element := p.element.clear, xml := [], pos := 0 } = 0 := hleft _ hf
    exact ⟨hf, ⟨nofun, fun hne => absurd rfl hne⟩, by omega, nofun⟩
  | some pos =>
    rw [hopen] at h
    cases hclose : p.xml.find 62 (pos + 1) with
    | none =>
      dsimp only at h
      rw [hclose] at h
      cases h
    | some epos =>
      dsimp only at h
      rw [hclose] at h
      dsimp only at h
      cases hfinish : finishTag { p.element.clear with name := p.xml.substr (pos + 1) (epos - (pos + 1)) } with
      | error s =>
        rw [hfinish] at h
        cases h
      | ok e =>
        rw [hfinish] at h
        cases h
        have hpos := find_bounds (by decide) hopen
        have hepos := find_bounds (by decide) hclose
        have hnew : left { p with element := e, pos := epos + 1 } = p.xml.length - (epos + 1) := hleft _ hf
        have hold := hleft p hf
        exact ⟨hf, ⟨fun _ => nofun, fun _ => rfl⟩, by omega, fun _ => by omega⟩

/-- On a string `hasContent` leaves the parser as it is. -/
theorem hasContent_string (hf : p.xml_file = none) :
    (∃ b, hasContent p = .ok (b, p)) ∨ ∃ message argument, hasContent p = .error (.InvalidXML message argument) := by
  have hpieces : p.pieces = 1 := by
    rw [pieces, hf]
    rfl
  unfold hasContent
  split
  next => exact .inl ⟨true, rfl⟩
  next =>
    split
    next => exact .inl ⟨false, rfl⟩
    next =>
      rw [hpieces, contentLoop]
      split
      next => exact .inl ⟨false, rfl⟩
      next =>
        split
        next => exact .inl ⟨_, rfl⟩
        next =>
          have hget : p.getXML = (false, { p with xml := [], pos := 0 }) := by simp [getXML, hf]
          rw [hget]
          exact .inr ⟨_, _, rfl⟩

/-- On a string `getContent` only fills in the content of the element. -/
theorem getContent_string (hf : p.xml_file = none) :
    (∃ text e, getContent p = .ok (text, { p with element := e })) ∨
      ∃ message argument, getContent p = .error (.InvalidXML message argument) := by
  have hpieces : p.pieces = 1 := by
    rw [pieces, hf]
    rfl
  unfold getContent
  split
  next => exact .inl ⟨_, p.element, rfl⟩
  next =>
    rw [hpieces, parseContent]
    cases p.xml.find 60 p.pos with
    | some epos => exact .inl ⟨_, _, rfl⟩
    | none =>
      have hget : ∀ e : Element, getXML { p with element := e } =
        (false, { p with element := e, xml := [], pos := 0 }) := by
        intro e
        simp [getXML, hf]
      dsimp only
      rw [hget]
      exact .inr ⟨_, _, rfl⟩

end Parser

end XML

end Srl
