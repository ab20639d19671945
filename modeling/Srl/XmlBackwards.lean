import Srl.StrRfind
import Srl.XmlLineBreaks

namespace Srl

open Bytes Occurrences

namespace Bytes

/-- The loop of `rfind(char)`, from an index down to 0. -/
def rfindLoop (s : Bytes) (c : UInt8) : Nat → Option Nat
  | 0 => if s.charAt 0 = c then some 0 else none
  | i + 1 => if s.charAt (i + 1) = c then some (i + 1) else rfindLoop s c i

/-- `String::rfind(char)`; `none` is `-1`. The position 0 asks for the end. -/
def rfind (s : Bytes) (c : UInt8) (pos : Nat) : Option Nat :=
  if s.length < pos then none else rfindLoop s c (if pos = 0 then s.length else pos)

variable {s u v w : Bytes} {c : UInt8} {i pos : Nat}

/-- From the index `i` down the loop comes to the last place of the character. -/
theorem rfindLoop_eq (hc : c ≠ 0) (i : Nat) : rfindLoop s c i = lastAt [c] s (i + 1) := by
  have hplace : ∀ n, s.charAt n = c ↔ [c] <+: s.drop n := by
    intro n
    rw [charAt_eq_iff hc, singleton_prefix_iff, List.head?_drop]
  induction i with
  | zero =>
    rw [rfindLoop, lastAt, lastAt]
    simp only [hplace]
  | succ i ih =>
    rw [rfindLoop, lastAt, ih]
    simp only [hplace]

theorem rfindLoop_found (hc : c ≠ 0) (hs : s = u ++ c :: (v ++ w)) (hv : c ∉ v) (hi : i = u.length + v.length) :
    rfindLoop s c i = some u.length := by
  have htake : (v ++ w).take (i + 1 - u.length - 1) = v := by
    rw [show i + 1 - u.length - 1 = v.length by omega, List.take_left]
  rw [rfindLoop_eq hc, hs, lastAt_singleton (by omega) (by rwa [htake])]

theorem rfindLoop_missing (hc : c ≠ 0) (hs : s = u ++ w) (hu : c ∉ u) (hi : i + 1 = u.length) :
    rfindLoop s c i = none := by
  rw [rfindLoop_eq hc, hs, lastAt_singleton_none hu (Nat.le_of_eq hi)]

/-- What the call on a buffer answers is the position in the text that it shows. -/
theorem rfind_shown {str : Str} (h : str.Shows s) (hc : c ≠ 0) (hlen : s.length < 2 ^ 31) :
    Str.rfind c pos str = (.ok ((s.rfind c pos).elim (-1 : Int) fun n => n), str) := by
  rw [h.rfind_lastIndex hc hlen, Str.lastIndex, rfind]
  split
  next => rfl
  next => rw [rfindLoop_eq hc, Str.startOf]

end Bytes

namespace XML

namespace Parser

/-- One `rfind('<', pos-1)`; a `pos-1` of -1 is behind the end of every string. -/
def openBefore (xml : Bytes) : Nat → Option Nat
  | 0 => none
  | pos + 1 => xml.rfind 60 pos

/-- `getPreviousElement` on a string, of which `_getXML(true)` finds no more. -/
def getPreviousElement (p : Parser) : Except Stop (Bool × Parser) :=
  match (openBefore p.xml p.pos).bind (openBefore p.xml) with
  | none => .ok (false, { p with xml := [], pos := 0 })
  | some pos =>
    (parseElement { p with element := p.element.clear, pos := pos + 1 }).map fun p => (true, p)

/-- `findPreviousElement`; the end of the rounds stands for a loop that goes on forever. -/
def findPreviousElement (name : Bytes) (is_closing : Bool) : Nat → Parser → Except Stop (Bool × Parser)
  | 0, _ => .error .endless
  | rounds + 1, p =>
    match getPreviousElement p with
    | .error s => .error s
    | .ok (false, p) => .ok (false, p)
    | .ok (true, p) =>
      if p.element.name.same name ∧ p.element.is_closing = is_closing then .ok (true, p)
      else findPreviousElement name is_closing rounds p

/-- What a number of calls returns, each with the element at the time or `NULL`, and the parser behind them. -/
def calls (call : Parser → Except Stop (Bool × Parser)) : Nat → Parser → Except Stop (List (Option Element) × Parser)
  | 0, p => .ok ([], p)
  | n + 1, p =>
    match call p with
    | .error s => .error s
    | .ok (found, p) =>
      (calls call n p).map fun r => ((if found then some p.element else none) :: r.1, r.2)

/-- A tag whose closing flag is that of the element read before it: the question mark of a declaration. -/
def Inherits (text : Bytes) : Prop := text.charAt 0 = 63 ∧ text.getLast? ≠ some 47

instance (text : Bytes) : Decidable (Inherits text) := by unfold Inherits; infer_instance

/-- The closing flag of a tag that is read behind an element with the flag `stale`. -/
def closing (stale : Bool) (text : Bytes) : Bool :=
  if Inherits text then stale else text.charAt 0 = 47 || text.getLast? = some 47

def closings (stale : Bool) : List Bytes → List Bool
  | [] => []
  | text :: texts => closing stale text :: closings (closing stale text) texts

/-- The element of a tag that is read behind an element with the flag `stale`. -/
def made (stale : Bool) (text : Bytes) : Except Stop Element := finishTag ⟨text, [], [], stale, false, 0⟩

variable {stale : Bool} {text : Bytes}

/-- A call, and the others behind it. -/
theorem calls_succ_ok {call : Parser → Except Stop (Bool × Parser)} {n : Nat} {p q : Parser}
    {ys : List (Option Element)} : calls call (n + 1) p = .ok (ys, q) ↔
      ∃ found p' xs, call p = .ok (found, p') ∧ calls call n p' = .ok (xs, q) ∧
        ys = (if found then some p'.element else none) :: xs := by
  rw [calls]
  cases call p with
  | error s =>
    constructor
    · intro h
      cases h
    · rintro ⟨found, p', xs, hcall, -⟩
      cases hcall
  | ok r =>
    obtain ⟨found, p'⟩ := r
    dsimp only
    constructor
    · intro h
      cases hrest : calls call n p' with
      | error s =>
        rw [hrest] at h
        cases h
      | ok r =>
        rw [hrest] at h
        cases h
        exact ⟨found, p', r.1, rfl, hrest, rfl⟩
    · rintro ⟨found, p'', xs, hcall, hrest, rfl⟩
      cases hcall
      rw [hrest]
      rfl

theorem markElement_eq {e : Element} (h : e.name ≠ [63]) :
    markElement e = .ok { e with name := markedName e.name, is_closing := closing e.is_closing e.name } := by
  have hlen : e.name.charAt 0 = 63 → e.name.length ≠ 1 := by
    intro hmark hone
    obtain ⟨c, hc⟩ := List.length_eq_one_iff.mp hone
    rw [hc] at hmark
    exact h (hc.trans (congrArg (fun c => [c]) hmark))
  unfold markElement markedName closing Inherits
  by_cases h47 : e.name.charAt 0 = 47
  · simp [h47]
  · by_cases hlast : e.name.getLast? = some 47
    · simp [h47, hlast]
    · by_cases h63 : e.name.charAt 0 = 63
      · simp [h63, hlast, hlen h63]
      · simp [h47, h63, hlast]

theorem splitAttributes_flags (e : Element) (b c : Bool) :
    splitAttributes { e with is_closing := b, has_attributes := c } =
      (splitAttributes e).map fun e => { e with is_closing := b } := by
  unfold splitAttributes
  dsimp only
  split
  next =>
    split
    next => rfl
    next pos _ => cases blankBreaks (e.name.substrFrom (pos + 1)) <;> rfl
  next => rfl

theorem finishTag_clear (e : Element) (text : Bytes) :
    finishTag { e.clear with name := text } = made e.is_closing text := by
  unfold made finishTag
  by_cases h : text = [63]
  · rw [markElement_fault h, markElement_fault h]
  · rw [markElement_eq h, markElement_eq h]
    exact (splitAttributes_flags ⟨markedName text, [], [], closing e.is_closing text, false, 0⟩
      _ e.has_attributes).trans
      (splitAttributes_flags ⟨markedName text, [], [], closing e.is_closing text, false, 0⟩ _ false).symm

theorem made_ok {e : Element} (h : made stale text = .ok e) :
    e.is_closing = closing stale text ∧ ∀ stale', made stale' text =
      .ok { e with is_closing := closing stale' text } := by
  unfold made finishTag at h ⊢
  by_cases hq : text = [63]
  · rw [markElement_fault hq] at h
    cases h
  · have hsplit : ∀ b, splitAttributes ⟨markedName text, [], [], b, false, 0⟩ =
        (splitAttributes ⟨markedName text, [], [], false, false, 0⟩).map fun e => { e with is_closing := b } :=
      fun b => splitAttributes_flags ⟨markedName text, [], [], false, false, 0⟩ b false
    have hmark : ∀ b, (markElement ⟨text, [], [], b, false, 0⟩ >>= splitAttributes) =
        (splitAttributes ⟨markedName text, [], [], false, false, 0⟩).map fun e =>
          { e with is_closing := closing b text } := by
      intro b
      rw [markElement_eq hq]
      exact hsplit _
    have hstale := (hmark stale).symm.trans h
    cases hs : splitAttributes ⟨markedName text, [], [], false, false, 0⟩ with
    | error s =>
      rw [hs] at hstale
      cases hstale
    | ok e' =>
      rw [hs] at hstale
      obtain rfl := Except.ok.inj hstale
      refine ⟨rfl, fun stale' => ?_⟩
      have hnew := hmark stale'
      rw [hs] at hnew
      exact hnew

theorem closing_eq_iff {b c : Bool} : closing b text = closing c text ↔ (Inherits text → b = c) := by
  unfold closing
  by_cases h : Inherits text
  · rw [if_pos h, if_pos h]
    exact ⟨fun heq _ => heq, fun heq => heq h⟩
  · rw [if_neg h, if_neg h]
    exact ⟨fun _ hi => absurd hi h, fun _ => rfl⟩

end Parser

/-- A stretch of a document: text without markup, and the tag that ends it, whatever is in it. -/
structure Stretch where
  text : Bytes
  tag : Bytes
  text_plain : ∀ c ∈ text, c ≠ 60 ∧ c ≠ 0
  tag_plain : ∀ c ∈ tag, c ≠ 62 ∧ c ≠ 0

open XML.Parser

namespace Stretch

def render (t : Stretch) : Bytes := t.text ++ 60 :: (t.tag ++ [62])

def renderAll (ts : List Stretch) : Bytes := ts.flatMap render

/-- The text that the parser reads for a tag: that of an empty one is the rest of the document. -/
def readTag (t : Stretch) (rest : Bytes) : Bytes := if t.tag = [] then cstr (62 :: rest) else t.tag

def readTags (tail : Bytes) : List Stretch → List Bytes
  | [] => []
  | t :: ts => t.readTag (renderAll ts ++ tail) :: readTags tail ts

variable {t u : Stretch} {ts : List Stretch} {tail rest pre gap xml : Bytes} {p q : Parser} {i : Nat}

theorem length_render (t : Stretch) : t.render.length = t.text.length + t.tag.length + 2 := by
  simp only [render, List.length_append, List.length_cons, List.length_nil]
  omega

theorem renderAll_cons (t : Stretch) (ts : List Stretch) : renderAll (t :: ts) = t.render ++ renderAll ts :=
    List.flatMap_cons

theorem render_append (t : Stretch) (rest : Bytes) : t.render ++ rest = t.text ++ 60 :: (t.tag ++ 62 :: rest) := by
  simp [render]

theorem substr_readTag {s : Bytes} {pos : Nat} (hdrop : s.drop pos = t.tag ++ 62 :: rest) :
    s.substr pos t.tag.length = t.readTag rest := by
  unfold readTag
  split
  next hnil =>
    rw [hnil] at hdrop ⊢
    have hle : pos + 0 ≤ s.length := by
      have := congrArg List.length hdrop
      simp only [List.length_drop, List.length_append, List.length_cons] at this
      omega
    rw [List.length_nil, substr, mid, if_pos hle, ofText, if_pos rfl, hdrop, List.nil_append]
  next hne => exact substr_eq hdrop hne

theorem getNextElement_stretch (hdrop : p.xml.drop p.pos = t.render ++ rest) :
    getNextElement p = (made p.element.is_closing (t.readTag rest)).map fun e =>
      (true, { p with element := e, pos := p.pos + t.render.length }) := by
  rw [render_append] at hdrop
  have hopen : p.xml.find 60 p.pos = some (p.pos + t.text.length) := find_eq hdrop (by decide) t.text_plain
  have htag : p.xml.drop (p.pos + t.text.length + 1) = t.tag ++ 62 :: rest := drop_succ_of_drop hdrop
  have hclose : p.xml.find 62 (p.pos + t.text.length + 1) = some _ := find_eq htag (by decide) t.tag_plain
  have htext := substr_readTag htag
  rw [getNextElement_here hopen hclose, Nat.add_sub_cancel_left, htext, finishTag_clear, length_render]
  rw [show p.pos + t.text.length + 1 + t.tag.length + 1 = p.pos + (t.text.length + t.tag.length + 2) by omega]

/-- What a run of `getNextElement` over some tags returns, and what it takes from the text. -/
inductive Walks (tail : Bytes) : Bool → List Stretch → List Element → Prop
  | nil (stale : Bool) : Walks tail stale [] []
  | cons {stale : Bool} {t : Stretch} {ts : List Stretch} {e : Element} {es : List Element}
      (made : made stale (t.readTag (renderAll ts ++ tail)) = .ok e) (walks : Walks tail e.is_closing ts es) :
      Walks tail stale (t :: ts) (e :: es)

theorem renderAll_split (hi : i < ts.length) (tail : Bytes) : renderAll ts ++ tail =
    renderAll (ts.take i) ++ (ts[i].render ++ (renderAll (ts.drop (i + 1)) ++ tail)) := by
  conv_lhs => rw [← List.take_append_drop i ts, List.drop_eq_getElem_cons hi]
  rw [renderAll, List.flatMap_append, List.flatMap_cons, List.append_assoc, List.append_assoc]
  rfl

theorem length_take_succ (hi : i < ts.length) :
    (renderAll (ts.take (i + 1))).length = (renderAll (ts.take i)).length + ts[i].render.length := by
  rw [List.take_add_one, List.getElem?_eq_getElem hi, renderAll, List.flatMap_append, List.length_append]
  simp [renderAll]

/-- An element that was read stands in a stretch that begins at the position. -/
theorem stretch_of_next (hf : p.xml_file = none) (h : getNextElement p = .ok (true, p')) :
    ∃ (t : Stretch) (rest : Bytes) (e : Element), p.xml.drop p.pos = t.render ++ rest ∧
      made p.element.is_closing (t.readTag rest) = .ok e ∧
      p' = { p with element := e, pos := p.pos + t.render.length } := by
  have hopen := (nextElement_ok hf h).2.1.mp rfl
  obtain ⟨pos, hpos⟩ := Option.ne_none_iff_exists'.mp hopen
  obtain ⟨text, behind, hdrop, rfl, htext⟩ := find_some (by decide) hpos
  have hbehind : p.xml.drop (p.pos + text.length + 1) = behind := drop_succ_of_drop hdrop
  cases hclose : p.xml.find 62 (p.pos + text.length + 1) with
  | none =>
    rw [getNextElement_string hf, hpos] at h
    dsimp only at h
    rw [hclose] at h
    cases h
  | some epos =>
    obtain ⟨tag, rest, htag, -, hplain⟩ := find_some (by decide) hclose
    let t : Stretch := ⟨text, tag, htext, hplain⟩
    have hstretch : p.xml.drop p.pos = t.render ++ rest := by
      rw [render_append, hdrop, ← hbehind, htag]
    rw [getNextElement_stretch hstretch] at h
    cases hmade : made p.element.is_closing (t.readTag rest) with
    | error s =>
      rw [hmade] at h
      cases h
    | ok e =>
      rw [hmade] at h
      obtain ⟨-, rfl⟩ := Prod.mk.inj (Except.ok.inj h)
      exact ⟨t, rest, e, hstretch, hmade, rfl⟩

/-- Elements that were read one after the other stand in stretches that follow each other. -/
theorem walks_of_calls {n : Nat} {es : List Element} (hf : p.xml_file = none)
    (h : calls getNextElement n p = .ok (es.map some, q)) :
    ∃ ts tail, ts.length = n ∧ p.xml.drop p.pos = renderAll ts ++ tail ∧ Walks tail p.element.is_closing ts es ∧
      q = { p with element := es.getLast?.getD p.element, pos := p.pos + (renderAll ts).length } := by
  induction n generalizing p es with
  | zero =>
    obtain ⟨hes, rfl⟩ := Prod.mk.inj (Except.ok.inj h)
    obtain rfl : es = [] := List.map_eq_nil_iff.mp hes.symm
    exact ⟨[], p.xml.drop p.pos, rfl, rfl, .nil _, rfl⟩
  | succ n ih =>
    obtain ⟨found, p', xs, hnext, hrest, hxs⟩ := calls_succ_ok.mp h
    obtain ⟨e, es, rfl, he, rfl⟩ := List.map_eq_cons_iff.mp hxs
    cases found with
    | false => cases he
    | true =>
      obtain ⟨t, rest, e', hstretch, hmade, rfl⟩ := stretch_of_next hf hnext
      obtain rfl : e = e' := Option.some.inj he
      obtain ⟨ts, tail, hlen, htail, hwalks, rfl⟩ :=
        ih (p := { p with element := e, pos := p.pos + t.render.length }) hf hrest
      obtain rfl : rest = renderAll ts ++ tail := by
        rw [← htail]
        exact (drop_add_of_drop t.render hstretch).symm
      refine ⟨t :: ts, tail, by rw [List.length_cons, hlen], ?_, .cons hmade hwalks, ?_⟩
      · rw [hstretch, renderAll_cons, List.append_assoc]
      · rw [renderAll_cons, List.length_append, ← Nat.add_assoc, List.getLast?_cons]
        rfl

theorem Walks.closings {stale : Bool} {es : List Element} (h : Walks tail stale ts es) :
    es.map (·.is_closing) = closings stale (readTags tail ts) := by
  induction h with
  | nil => rfl
  | cons made walks ih =>
    rw [List.map_cons, readTags, Parser.closings, ih, (made_ok made).1]

theorem Walks.length {stale : Bool} {es : List Element} (h : Walks tail stale ts es) : es.length = ts.length := by
  induction h with
  | nil => rfl
  | cons made walks ih => rw [List.length_cons, List.length_cons, ih]

theorem Walks.get {stale : Bool} {es : List Element} (h : Walks tail stale ts es) (hi : i < ts.length) :
    ∃ (stale' : Bool) (e : Element), es[i]? = some e ∧
      made stale' (ts[i].readTag (renderAll (ts.drop (i + 1)) ++ tail)) = .ok e := by
  induction h generalizing i with
  | nil => exact absurd hi (Nat.not_lt_zero i)
  | @cons stale t ts e es made walks ih =>
    cases i with
    | zero => exact ⟨stale, e, rfl, made⟩
    | succ i => exact ih (Nat.lt_of_succ_lt_succ hi)

end Stretch

end XML

end Srl
