import Srl.XmlChunkTag
import Srl.XmlChunkContent
import Srl.XmlTagText

namespace Srl

namespace XML

open Bytes

/-- What a walk gets of an element. -/
structure Item where
  name : Bytes
  is_closing : Bool
  attributes : Bytes
  content : Option Bytes
  deriving DecidableEq, Repr

inductive Outcome
  | more
  | finished
  | stopped (s : Stop)
  deriving DecidableEq, Repr

def Element.item (e : Element) (content : Option Bytes) : Item := ⟨e.name, e.is_closing, e.attributes, content⟩

namespace Parser

/-- `hasContent`, and `getContent` where it is true. -/
def readContent (p : Parser) : Except Stop (Option Bytes × Parser) := do
  let (has, p) ← hasContent p
  if has then do
    let (content, p) ← getContent p
    .ok (some content, p)
  else .ok (none, p)

/-- The first `n` elements of a document, and how the walk goes on. -/
def walk : Nat → Parser → List Item × Outcome
  | 0, _ => ([], .more)
  | n + 1, p =>
    match getNextElement p with
    | .error s => ([], .stopped s)
    | .ok (false, _) => ([], .finished)
    | .ok (true, p) =>
      match readContent p with
      | .error s => ([p.element.item none], .stopped s)
      | .ok (content, p') => (p.element.item content :: (walk n p').1, (walk n p').2)

/-- The refills of the next `getNextElement` are harmless. -/
def TagHarmless (p : Parser) : Prop := ∀ cs, afterOpen p.chunks = some cs → TagWhole [] cs

/-- The refills of `hasContent` and `getContent` are harmless: nothing is read, or the content is
blank or has no end, or no boundary spoils it. -/
def ContentHarmless (p : Parser) : Prop :=
  p.element.is_closing = true ∨ (∀ c ∈ (p.rest.dropWhile isspace).head?, c = 60) ∨ 60 ∉ p.rest ∨
    ContentWhole p.chunks

/-- All refills of a walk over `n` elements are harmless. -/
def Harmless : Nat → Parser → Prop
  | 0, _ => True
  | n + 1, p =>
    TagHarmless p ∧
      ∀ p₁, getNextElement p = .ok (true, p₁) →
        ContentHarmless p₁ ∧ ∀ content p₂, readContent p₁ = .ok (content, p₂) → Harmless n p₂

/-- A parser of a file, and one of a string that may stand in front of text that the first has
left behind. -/
structure Follows (p q : Parser) : Prop where
  file : Fed p
  string : Fed q
  whole : q.xml_file.getD [] = []
  element : p.element = q.element
  skipped : ∃ text, 60 ∉ text ∧ q.rest = text ++ p.rest

/-- The two behind the same tag. -/
structure Level (p q : Parser) : Prop where
  file : Fed p
  string : Fed q
  whole : q.xml_file.getD [] = []
  element : p.element = q.element
  fresh : p.element.content = []
  rest : p.rest = q.rest
  filled : p.xml ≠ [] ∧ q.xml ≠ []

variable {p q : Parser} {pre post : Bytes}

/-- `getNextElement` behind its first refill. -/
def search (p : Parser) : Except Stop (Bool × Parser) := do
  let (found, p) ← openTag p.pieces p
  if found then do
    let p ← parseElement p
    .ok (true, p)
  else .ok (false, p)

theorem getNextElement_search (hp : Fed p) :
    (p.rest = [] ∧ afterOpen p.chunks = none ∧ ∃ p', getNextElement p = .ok (false, p')) ∨
      ∃ p₀, getNextElement p = search p₀ ∧ p₀.element = p.element.clear ∧ Fed p₀ ∧ p₀.rest = p.rest ∧
        p₀.xml_file.getD [] <:+ p.xml_file.getD [] ∧ afterOpen p.chunks = afterOpen p₀.chunks := by
  let p₀ : Parser := { p with element := p.element.clear }
  by_cases hle : p.xml.length ≤ p.pos
  · have hnil : p.xml.drop p.pos = [] := List.drop_eq_nil_of_le hle
    cases hcs : p.xml_file.getD [] with
    | nil =>
      refine .inl ⟨by rw [rest_eq, hnil, hcs]; rfl, by rw [chunks_eq hcs, hnil]; rfl,
        { p₀ with xml := [], pos := 0 }, ?_⟩
      have hget : getXML { p with element := p.element.clear } = (false, { p₀ with xml := [], pos := 0 }) :=
        getXML_nil hcs
      simp only [getNextElement, if_pos hle]
      rw [hget]
    | cons c cs =>
      have hc := hp.pieces c (by rw [hcs]; exact List.mem_cons_self)
      refine .inr ⟨p₀.next c cs, ?_, rfl, ⟨(hp.next hcs).pieces, (hp.next hcs).plain⟩, ?_,
        List.suffix_cons c cs, ?_⟩
      · have hget : getXML { p with element := p.element.clear } = (true, p₀.next c cs) := getXML_cons hcs hc
        simp only [getNextElement, if_pos hle]
        rw [hget]
        rfl
      · rw [rest_eq p, hnil, hcs]
        rfl
      · rw [chunks_eq hcs, hnil, afterOpen_missing List.not_mem_nil]
        rfl
  · refine .inr ⟨p₀, ?_, rfl, ⟨hp.pieces, hp.plain⟩, rfl, List.suffix_refl _, rfl⟩
    simp only [getNextElement, if_neg hle]
    rfl

theorem getNextElement_missing (hp : Fed p) (h : 60 ∉ p.rest) :
    afterOpen p.chunks = none ∧ ∃ p', getNextElement p = .ok (false, p') := by
  rcases getNextElement_search hp with ⟨-, hafter, hget⟩ | ⟨p₀, hget, -, hp₀, hrest, -, hafter⟩
  · exact ⟨hafter, hget⟩
  · obtain ⟨⟨p', hopen⟩, hnone⟩ := openTag_missing hp₀ rfl (hrest ▸ h)
    refine ⟨hafter.trans hnone, p', ?_⟩
    rw [hget, search, hopen]
    rfl

theorem getNextElement_found (hp : Fed p) (h : p.rest = pre ++ 60 :: post) (hpre : 60 ∉ pre) :
    ∃ p₁, getNextElement p = (parseElement p₁).map (Prod.mk true) ∧ p₁.element = p.element.clear ∧
      Reaches p p₁ post ∧ afterOpen p.chunks = some p₁.chunks := by
  rcases getNextElement_search hp with ⟨hnil, -, -⟩ | ⟨p₀, hget, he, hp₀, hrest, hpieces, hafter⟩
  · rw [hnil] at h
    simp at h
  · obtain ⟨p₁, hopen, he₁, hreach, hsome⟩ := openTag_found hp₀ rfl (hrest.trans h) hpre
    refine ⟨p₁, ?_, he₁.trans he, ⟨hreach.fed, hreach.rest, hreach.filled, hreach.pieces.trans hpieces⟩,
      hafter.trans hsome⟩
    rw [hget, search, hopen]
    cases hparse : parseElement p₁ <;> simp [bind, Except.bind, Except.map, hparse]

/-- What the caller sees of a `getNextElement`. -/
def shown (r : Bool × Parser) : Option (Bytes × Bool × Bytes) := if r.1 then some (seen r.2.element) else none

theorem getNextElement_error {p₁ : Parser} {s : Stop} (h : getNextElement p = (parseElement p₁).map (Prod.mk true))
    (hc : closeTag p₁.pieces p₁ = .error s) : getNextElement p = .error s := by
  rw [h, parseElement_eq, hc]
  rfl

theorem getNextElement_ok {p₁ p' : Parser} (h : getNextElement p = (parseElement p₁).map (Prod.mk true))
    (hc : closeTag p₁.pieces p₁ = .ok p') :
    getNextElement p = (finishTag p'.element).map fun e => (true, { p' with element := e }) := by
  rw [h, parseElement_eq, hc]
  show ((finishTag p'.element).map _).map _ = _
  cases finishTag p'.element <;> rfl

theorem shown_ok {p' : Parser} (h : getNextElement p = (finishTag p'.element).map fun e =>
    (true, { p' with element := e })) :
    (getNextElement p).map shown = ((finishTag p'.element).map seen).map some := by
  rw [h]
  cases finishTag p'.element <;> rfl

theorem map_some_inj {x y : Except Stop (Bytes × Bool × Bytes)} (h : x.map some = y.map some) : x = y := by
  cases x <;> cases y <;> cases h <;> rfl

theorem named_ne_zero {p₁ : Parser} {name : Bytes} (hp : Fed p₁) (hn : p₁.element.name = [])
    (h : ∀ c ∈ name, c ∈ p₁.element.name ∨ c ∈ p₁.rest) : ∀ c ∈ name, c ≠ 0 := by
  intro c hc
  rcases h c hc with hm | hm
  · rw [hn] at hm
    cases hm
  · exact hp.plain c hm

theorem shown_error {p' : Parser} {e : Element} {name : Bytes} {s : Stop}
    (h : getNextElement p = (finishTag p'.element).map fun e => (true, { p' with element := e }))
    (he : p'.element = { e with name := name }) (hs : (getNextElement p).map shown = .error s) :
    BadAttributes s ∨ s = .fault := by
  rw [shown_ok h, he] at hs
  cases hf : (finishTag { e with name := name }).map seen with
  | error s' =>
    rw [hf] at hs
    cases hs
    exact (finishTag_error hf).imp_right And.left
  | ok x =>
    rw [hf] at hs
    cases hs

theorem noEnd_ne {a name : Bytes} (h : a ≠ name) :
    Stop.InvalidXML "tag name exceeds allowed length: '%s'" a ≠ noEnd name := by
  unfold noEnd
  split
  next => exact fun he => h (Stop.InvalidXML.inj he).2
  next => exact fun he => absurd (Stop.InvalidXML.inj he).1 (by decide)

theorem tagWhole_single (b : Bytes) : TagWhole [] [b] := by
  by_cases hb : 62 ∈ b
  · exact (tagWhole_of_mem hb).mpr (.inr ⟨rfl, rfl⟩)
  · exact (tagWhole_of_not_mem hb).mpr (.inl rfl)

theorem markElement_content {e e' : Element} (h : markElement e = .ok e') : e'.content = e.content := by
  unfold markElement at h
  split at h
  next => cases h; rfl
  next =>
    split at h
    next => cases h; rfl
    next =>
      split at h
      next =>
        split at h
        next => cases h
        next => cases h; rfl
      next => cases h; rfl

theorem splitAttributes_content {e e' : Element} (h : splitAttributes e = .ok e') : e'.content = e.content := by
  unfold splitAttributes at h
  split at h
  next =>
    split at h
    next => cases h
    next pos _ =>
      cases hb : blankBreaks (e.name.substrFrom (pos + 1)) with
      | error s =>
        rw [hb] at h
        cases h
      | ok a =>
        rw [hb] at h
        cases h
        rfl
  next => cases h; rfl

theorem finishTag_content {e e' : Element} (h : finishTag e = .ok e') : e'.content = e.content := by
  cases hm : markElement e with
  | error s =>
    rw [finishTag, hm] at h
    cases h
  | ok e₁ =>
    rw [finishTag, hm] at h
    exact (splitAttributes_content h).trans (markElement_content hm)

/-- Two parsers with the same tag before them end it in the same way. -/
theorem Level.finish {p₂ q₂ : Parser} (h : Level p₂ q₂)
    (hp : getNextElement p = (finishTag p₂.element).map fun e => (true, { p₂ with element := e }))
    (hq : getNextElement q = (finishTag q₂.element).map fun e => (true, { q₂ with element := e })) :
    (∃ s, getNextElement p = .error s ∧ getNextElement q = .error s) ∨
      ∃ p' q', getNextElement p = .ok (true, p') ∧ getNextElement q = .ok (true, q') ∧ Level p' q' := by
  rw [← h.element] at hq
  rw [hp, hq]
  cases hf : finishTag p₂.element with
  | error s => exact .inl ⟨s, rfl, rfl⟩
  | ok e =>
    refine .inr ⟨{ p₂ with element := e }, { q₂ with element := e }, rfl, rfl, ?_⟩
    exact ⟨⟨h.file.pieces, h.file.plain⟩, ⟨h.string.pieces, h.string.plain⟩, h.whole, rfl,
      (finishTag_content hf).trans h.fresh, h.rest, h.filled⟩

/-- Two tags whose names extend each other show the same only if their attributes are bad. -/
theorem shown_extends {p₂ q₂ : Parser} {e : Element} {n n' u : Bytes} {x : Except Stop (Option (Bytes × Bool × Bytes))}
    (hp : getNextElement p = (finishTag p₂.element).map fun e => (true, { p₂ with element := e }))
    (hq : getNextElement q = (finishTag q₂.element).map fun e => (true, { q₂ with element := e }))
    (hep : p₂.element = { e with name := n }) (heq : q₂.element = { e with name := n' }) (ha : e.attributes = [])
    (hn : ∀ c ∈ n, c ≠ 0) (hn' : ∀ c ∈ n', c ≠ 0) (hne : n ≠ []) (hne' : n' ≠ []) (hu : u ≠ [])
    (hor : n' = n ++ u ∨ n = n' ++ u) (hx : (getNextElement p).map shown = x) (hx' : (getNextElement q).map shown = x) :
    ∃ s, x = .error s ∧ BadAttributes s := by
  have hy : (finishTag p₂.element).map seen = (finishTag q₂.element).map seen := by
    apply map_some_inj
    rw [← shown_ok hp, ← shown_ok hq, hx, hx']
  have hbad : ∃ s, (finishTag q₂.element).map seen = .error s ∧ BadAttributes s := by
    rw [hep, heq] at hy
    rw [heq]
    obtain rfl | rfl := hor
    · exact finishTag_extends hn' ha hne hu hy rfl
    · exact finishTag_extends hn ha hne' hu rfl hy
  obtain ⟨s, hs, hbad⟩ := hbad
  rw [shown_ok hq, hs] at hx'
  exact ⟨s, hx'.symm, hbad⟩

theorem getNextElement_level (h : Follows p q) :
    (TagHarmless p → (∃ p' q', getNextElement p = .ok (false, p') ∧ getNextElement q = .ok (false, q')) ∨
        (∃ s, getNextElement p = .error s ∧ getNextElement q = .error s) ∨
          ∃ p' q', getNextElement p = .ok (true, p') ∧ getNextElement q = .ok (true, q') ∧ Level p' q') ∧
      (¬TagHarmless p → ∀ x, (getNextElement p).map shown = x → (getNextElement q).map shown = x →
        ∃ s, x = .error s ∧ BadAttributes s) := by
  obtain ⟨text, htext, hskip⟩ := h.skipped
  by_cases hopen : 60 ∈ p.rest
  · obtain ⟨pre, post, hrest, hpre⟩ := List.eq_append_cons_of_mem hopen
    have hrestq : q.rest = (text ++ pre) ++ 60 :: post := by rw [hskip, hrest, List.append_assoc]
    obtain ⟨p₁, hgetp, hep, hreachp, hafter⟩ := getNextElement_found h.file hrest hpre
    obtain ⟨q₁, hgetq, heq, hreachq, -⟩ := getNextElement_found h.string hrestq
      fun hm => (List.mem_append.mp hm).elim htext hpre
    have hharmless : TagHarmless p ↔ TagWhole p₁.element.name p₁.chunks := by
      rw [hep]
      exact ⟨fun hall => hall _ hafter, fun hw cs hcs => Option.some.inj (hafter.symm.trans hcs) ▸ hw⟩
    have hnilq : q₁.xml_file.getD [] = [] := by
      have := hreachq.pieces
      rw [h.whole] at this
      exact List.suffix_nil.mp this
    have hwholeq : TagWhole q₁.element.name q₁.chunks := by
      rw [heq, chunks_eq hnilq]
      exact tagWhole_single _
    have hsame : p₁.element = q₁.element := by rw [hep, heq, h.element]
    rw [hharmless]
    by_cases hclose : 62 ∈ post
    · obtain ⟨raw, post₂, hpost, hraw⟩ := List.eq_append_cons_of_mem hclose
      obtain ⟨a, -, hno⟩ | ⟨q₂, nameq, hq₂, heq₂, hreachq₂, hmemq, hnameq, -⟩ :=
        closeTag_found hreachq.fed rfl (hreachq.rest.trans hpost) hraw
      · exact absurd hwholeq hno
      obtain rfl := hnameq hwholeq
      have hseenq := getNextElement_ok hgetq hq₂
      rcases closeTag_found hreachp.fed rfl (hreachp.rest.trans hpost) hraw with
        ⟨a, ha, hno⟩ | ⟨p₂, namep, hp₂, hep₂, hreachp₂, hmemp, hnamep, hcut⟩
      · refine ⟨fun hw => absurd hw hno, fun _ x hx hx' => ?_⟩
        rw [getNextElement_error hgetp ha] at hx
        obtain rfl := hx
        exact ⟨_, rfl, (shown_error hseenq heq₂ hx').resolve_right fun hf => by cases hf⟩
      · have hseenp := getNextElement_ok hgetp hp₂
        refine ⟨fun hw => ?_, fun hw x hx hx' => ?_⟩
        · have hele : p₂.element = q₂.element := by
            rw [hep₂, heq₂, hnamep hw, hsame, hreachp.rest, hreachq.rest]
          have hnilq₂ : q₂.xml_file.getD [] = [] := by
            have := hreachq₂.pieces
            rw [hnilq] at this
            exact List.suffix_nil.mp this
          have hfresh : p₂.element.content = [] := by
            rw [hep₂, hep]
            rfl
          have hlevel : Level p₂ q₂ := ⟨hreachp₂.fed, hreachq₂.fed, hnilq₂, hele, hfresh,
            hreachp₂.rest.trans hreachq₂.rest.symm, hreachp₂.filled, hreachq₂.filled⟩
          exact .inr (hlevel.finish hseenp hseenq)
        · obtain ⟨hne, hne', u, hu, hor⟩ := hcut hw
          have hnamep : ∀ c ∈ namep, c ≠ 0 := named_ne_zero hreachp.fed (hep ▸ rfl) hmemp
          have hnameq := named_ne_zero hreachq.fed (heq ▸ rfl) hmemq
          rw [hreachp.rest, hsame] at hne' hor
          rw [hreachq.rest] at heq₂ hnameq
          rw [hsame] at hep₂
          have hattr : q₁.element.attributes = [] := by
            rw [heq]
            rfl
          exact shown_extends hseenp hseenq hep₂ heq₂ hattr hnamep hnameq hne hne' hu hor hx hx'
    · obtain ⟨hp₁, hcut⟩ := closeTag_missing hreachp.fed rfl (hreachp.rest ▸ hclose)
      obtain ⟨hq₁, -⟩ := closeTag_missing hreachq.fed rfl (hreachq.rest ▸ hclose)
      have herrq := getNextElement_error hgetq (hq₁ hwholeq)
      rw [hreachq.rest, ← hsame] at herrq
      refine ⟨fun hw => .inr (.inl ⟨_, getNextElement_error hgetp (hreachp.rest ▸ hp₁ hw), herrq⟩), ?_⟩
      intro hw x hx hx'
      obtain ⟨a, ha, hne⟩ := hcut hw
      rw [getNextElement_error hgetp ha] at hx
      rw [herrq] at hx'
      exact absurd (Except.error.inj (hx.trans hx'.symm)) (noEnd_ne (hreachp.rest ▸ hne))
  · have hq : 60 ∉ q.rest := by
      rw [hskip]
      exact fun hm => (List.mem_append.mp hm).elim htext hopen
    obtain ⟨hafter, p', hp'⟩ := getNextElement_missing h.file hopen
    obtain ⟨-, q', hq'⟩ := getNextElement_missing h.string hq
    refine ⟨fun _ => .inl ⟨p', q', hp', hq'⟩, fun hcut => absurd ?_ hcut⟩
    intro cs hcs
    rw [hafter] at hcs
    cases hcs

theorem hasContent_loop (hc : p.element.content = []) (hcl : p.element.is_closing = false) :
    hasContent p = contentLoop p.pieces p := by
  rw [hasContent, hc, hcl]
  rfl

theorem readContent_none {p₁ : Parser} (h : hasContent p = .ok (false, p₁)) :
    readContent p = .ok (none, p₁) := by
  rw [readContent, h]
  rfl

theorem readContent_error {s : Stop} (h : hasContent p = .error s) : readContent p = .error s := by
  rw [readContent, h]
  rfl

theorem readContent_some {p₁ p₂ : Parser} (h : hasContent p = .ok (true, p₁)) (hc : p₁.element.content = [])
    (hp : parseContent p₁.pieces p₁ = .ok p₂) : readContent p = .ok (some p₂.element.content, p₂) := by
  have hget : getContent p₁ = .ok (p₂.element.content, p₂) := by
    rw [getContent, hc, hp]
    rfl
  rw [readContent, h]
  simp [bind, Except.bind, hget]

theorem readContent_stop {p₁ : Parser} {s : Stop} (h : hasContent p = .ok (true, p₁))
    (hc : p₁.element.content = []) (hp : parseContent p₁.pieces p₁ = .error s) : readContent p = .error s := by
  have hget : getContent p₁ = .error s := by
    rw [getContent, hc, hp]
    rfl
  rw [readContent, h]
  simp [bind, Except.bind, hget]

/-- What `hasContent` leaves of the text in front of the first character that is not blank. -/
theorem rest_ink {p' : Parser} (h : p'.chunks = p.chunks.dropWhile blankChunk) :
    p.rest = (p.chunks.takeWhile blankChunk).flatten ++ p'.rest := by
  unfold rest
  rw [h, ← List.flatten_append, List.takeWhile_append_dropWhile]

theorem blank_free (cs : List Bytes) : 60 ∉ (cs.takeWhile blankChunk).flatten := by
  intro hm
  obtain ⟨b, hb, hm⟩ := List.mem_flatten.mp hm
  have hblank : blankChunk b = true := List.mem_takeWhile_imp hb
  have := List.all_eq_true.mp hblank 60 hm
  exact absurd this (by decide)

theorem chunks_whole (h : q.xml_file.getD [] = []) : q.chunks = [q.rest] := by
  rw [chunks_eq h, rest_eq, h, List.flatten_nil, List.append_nil]

/-- A parser of a string keeps its blanks. -/
theorem chunks_ink {c : UInt8} {t : Bytes} (h : q.xml_file.getD [] = [])
    (hink : q.rest.dropWhile isspace = c :: t) : q.chunks.dropWhile blankChunk = [q.rest] := by
  have hb : blankChunk q.rest = false := by
    by_contra hne
    rw [dropWhile_blank (by simpa using hne)] at hink
    cases hink
  rw [chunks_whole h, List.dropWhile_cons_of_neg (by simp [hb])]

/-- Refills are harmless to a text in front of a tag only if no boundary spoils it. -/
theorem ContentHarmless.contentWhole {c : UInt8} {t : Bytes} (h : ContentHarmless p)
    (hcl : p.element.is_closing = false) (hink : p.rest.dropWhile isspace = c :: t) (hc : c ≠ 60)
    (hend : 60 ∈ p.rest) : ContentWhole p.chunks := by
  rcases h with hclosing | hhead | hno | hwhole
  · rw [hclosing] at hcl
    cases hcl
  · exact absurd (hhead c (by simp [hink])) hc
  · exact absurd hend hno
  · exact hwhole

theorem readContent_level (h : Level p q) :
    (ContentHarmless p → (∃ s, readContent p = .error s ∧ readContent q = .error s) ∨
        ∃ content p' q', readContent p = .ok (content, p') ∧ readContent q = .ok (content, q') ∧
          Follows p' q') ∧
      (¬ContentHarmless p → ∃ c c' p' q', readContent p = .ok (some c, p') ∧
        readContent q = .ok (some c', q') ∧ c ≠ c') := by
  have hfresh : q.element.content = [] := h.element ▸ h.fresh
  cases hclosing : p.element.is_closing with
  | true =>
    refine ⟨fun _ => .inr ⟨none, p, q, ?_, ?_, ?_⟩, fun hn => absurd (.inl hclosing) hn⟩
    · exact readContent_none (hasContent_closing h.fresh hclosing)
    · exact readContent_none (hasContent_closing hfresh (h.element ▸ hclosing))
    · exact ⟨h.file, h.string, h.whole, h.element, [], List.not_mem_nil, h.rest.symm⟩
  | false =>
    have hloopp := hasContent_loop h.fresh hclosing
    have hloopq := hasContent_loop hfresh (h.element ▸ hclosing)
    cases hink : p.rest.dropWhile isspace with
    | nil =>
      have hblankp := contentLoop_blank h.file rfl h.filled.1 hink
      have hblankq := contentLoop_blank h.string rfl h.filled.2 (h.rest ▸ hink)
      rw [← h.element] at hblankq
      refine ⟨fun _ => .inl ⟨_, readContent_error (hloopp.trans hblankp), readContent_error (hloopq.trans hblankq)⟩, ?_⟩
      exact fun hn => absurd (.inr (.inl (by simp [hink]))) hn
    | cons c t =>
      obtain ⟨p₁, hp₁, hep, hfedp, hxp, hpiecesp, hchunksp⟩ := contentLoop_ink h.file rfl h.filled.1 hink
      obtain ⟨q₁, hq₁, heq, hfedq, hxq, hpiecesq, hchunksq⟩ :=
        contentLoop_ink h.string rfl h.filled.2 (h.rest ▸ hink)
      rw [chunks_ink h.whole (h.rest ▸ hink)] at hchunksq
      have hrestp := rest_ink hchunksp
      have hrestq : q₁.rest = p.rest := by
        rw [h.rest, rest, hchunksq, List.flatten_singleton]
      have hwholeq : q₁.xml_file.getD [] = [] := (List.cons.inj hchunksq).2
      have helem : p₁.element = q₁.element := by rw [hep, heq, h.element]
      have hfreshp : p₁.element.content = [] := hep ▸ h.fresh
      have hfreshq : q₁.element.content = [] := helem ▸ hfreshp
      by_cases hc : c = 60
      · rw [decide_eq_false (by simp [hc])] at hp₁ hq₁
        refine ⟨fun _ => .inr ⟨none, p₁, q₁, readContent_none (hloopp.trans hp₁), readContent_none (hloopq.trans hq₁),
          hfedp, hfedq, hwholeq, helem, _, blank_free _, hrestq.trans hrestp⟩, ?_⟩
        exact fun hn => absurd (.inr (.inl (by simp [hink, hc]))) hn
      · rw [decide_eq_true (by simpa using hc)] at hp₁ hq₁
        have hhasp := hloopp.trans hp₁
        have hhasq := hloopq.trans hq₁
        by_cases hend : 60 ∈ p.rest
        · obtain ⟨text, post, hrest, htext⟩ := List.eq_append_cons_of_mem hend
          have hblank := blank_free p.chunks
          obtain ⟨-, text', rfl, hrest'⟩ | ⟨post', hws, -⟩ := first_of_append (hrestp.symm.trans hrest) htext
          rotate_left
          · exact absurd (hws ▸ List.mem_append_right _ List.mem_cons_self) hblank
          have htext' : 60 ∉ text' := fun hm => htext (List.mem_append_right _ hm)
          obtain ⟨p₂, contentp, hp₂, hep₂, hfedp₂, -, -, ⟨skipped, hskip, hmove⟩, hwholep, hcutp⟩ :=
            parseContent_found hfedp rfl hrest' htext'
          obtain ⟨q₂, contentq, hq₂, heq₂, hfedq₂, hpiecesq₂, hstay, -, hcontentq, -⟩ :=
            parseContent_found hfedq rfl (hrestq.trans hrest) htext
          have htextq : TextWhole q₁.chunks := by
            rw [chunks_whole hwholeq, hrestq]
            refine ⟨fun hhead => hc ?_, .inl hend⟩
            obtain ⟨tail, htail⟩ := List.head?_eq_some_iff.mp hhead
            rw [htail, List.dropWhile_cons_of_neg (by decide)] at hink
            exact (List.cons.inj hink).1.symm
          have hreadp := readContent_some hhasp hfreshp hp₂
          have hreadq := readContent_some hhasq hfreshq hq₂
          rw [hep₂] at hreadp
          rw [heq₂, hcontentq htextq, hfreshq, List.nil_append] at hreadq
          rw [hfreshp, hchunksp] at hwholep hcutp
          refine ⟨fun hw => .inr ?_, fun hn => ?_⟩
          · obtain ⟨hws, htext⟩ := hw.contentWhole hclosing hink hc hend
            obtain rfl := hwholep htext
            rw [hws, List.nil_append] at hreadq
            refine ⟨_, p₂, q₂, hreadp, hreadq, hfedp₂, hfedq₂, ?_, ?_, skipped, hskip, ?_⟩
            · rw [hwholeq] at hpiecesq₂
              exact List.suffix_nil.mp hpiecesq₂
            · rw [hep₂, heq₂, helem, hcontentq htextq, hfreshq, hws]
              rfl
            · rw [hstay hwholeq, hrestq, hrestp, hws, hmove]
              rfl
          · refine ⟨_, _, p₂, q₂, hreadp, hreadq, fun he => ?_⟩
            dsimp only at he
            by_cases htext : TextWhole (p.chunks.dropWhile blankChunk)
            · rw [hwholep htext, List.nil_append] at he
              have hws := List.self_eq_append_left.mp he
              exact hn (.inr (.inr (.inr ⟨hws, htext⟩)))
            · obtain ⟨extra, hextra, hmem⟩ := hcutp htext
              rw [hextra] at he
              have hin : 60 ∈ (p.chunks.takeWhile blankChunk).flatten ++ text' := by
                rw [← he]
                exact List.mem_append_right _ hmem
              exact (List.mem_append.mp hin).elim hblank htext'
        · have hendp : 60 ∉ p₁.rest := fun hm => hend (by rw [hrestp]; exact List.mem_append_right _ hm)
          have hstopp := parseContent_missing hfedp rfl hendp
          have hstopq := parseContent_missing hfedq rfl (hrestq ▸ hend)
          rw [← helem] at hstopq
          refine ⟨fun _ => .inl ⟨_, readContent_stop hhasp hfreshp hstopp, readContent_stop hhasq hfreshq hstopq⟩, ?_⟩
          exact fun hn => absurd (.inr (.inr (.inl hend))) hn

theorem walk_error {n : Nat} {s : Stop} (h : getNextElement p = .error s) :
    walk (n + 1) p = ([], .stopped s) := by
  rw [walk, h]

theorem walk_finished {n : Nat} {p' : Parser} (h : getNextElement p = .ok (false, p')) :
    walk (n + 1) p = ([], .finished) := by
  rw [walk, h]

theorem walk_stop {n : Nat} {p' : Parser} {s : Stop} (h : getNextElement p = .ok (true, p'))
    (hr : readContent p' = .error s) : walk (n + 1) p = ([p'.element.item none], .stopped s) := by
  simp only [walk, h, hr]

theorem walk_cons {n : Nat} {p' p'' : Parser} {content : Option Bytes} (h : getNextElement p = .ok (true, p'))
    (hr : readContent p' = .ok (content, p'')) :
    walk (n + 1) p = (p'.element.item content :: (walk n p'').1, (walk n p'').2) := by
  simp only [walk, h, hr]

theorem walk_head {n : Nat} {p' : Parser} (h : getNextElement p = .ok (true, p')) :
    ∃ content items outcome, walk (n + 1) p = (p'.element.item content :: items, outcome) := by
  cases hr : readContent p' with
  | error s => exact ⟨_, _, _, walk_stop h hr⟩
  | ok r => exact ⟨_, _, _, walk_cons h hr⟩

theorem walk_shown {n : Nat} (h : walk (n + 1) p = walk (n + 1) q) :
    (getNextElement p).map shown = (getNextElement q).map shown := by
  match hp : getNextElement p, hq : getNextElement q with
  | .error s, .error t =>
    rw [walk_error hp, walk_error hq] at h
    cases h
    rfl
  | .error s, .ok (false, q') =>
    rw [walk_error hp, walk_finished hq] at h
    cases h
  | .error s, .ok (true, q') =>
    obtain ⟨_, _, _, hw⟩ := walk_head (n := n) hq
    rw [walk_error hp, hw] at h
    cases h
  | .ok (false, p'), .error t =>
    rw [walk_finished hp, walk_error hq] at h
    cases h
  | .ok (false, p'), .ok (false, q') => rfl
  | .ok (false, p'), .ok (true, q') =>
    obtain ⟨_, _, _, hw⟩ := walk_head (n := n) hq
    rw [walk_finished hp, hw] at h
    cases h
  | .ok (true, p'), .error t =>
    obtain ⟨_, _, _, hw⟩ := walk_head (n := n) hp
    rw [hw, walk_error hq] at h
    cases h
  | .ok (true, p'), .ok (false, q') =>
    obtain ⟨_, _, _, hw⟩ := walk_head (n := n) hp
    rw [hw, walk_finished hq] at h
    cases h
  | .ok (true, p'), .ok (true, q') =>
    obtain ⟨_, _, _, hwp⟩ := walk_head (n := n) hp
    obtain ⟨_, _, _, hwq⟩ := walk_head (n := n) hq
    rw [hwp, hwq] at h
    obtain ⟨hname, hclosing, hattributes, -⟩ := Item.mk.inj (List.cons.inj (Prod.mk.inj h).1).1
    show Except.ok (some (p'.element.name, p'.element.is_closing, p'.element.attributes)) = _
    rw [hname, hclosing, hattributes]
    rfl

theorem walk_level (n : Nat) (h : Follows p q) :
    (Harmless n p → walk n p = walk n q) ∧
      (walk n p = walk n q → Harmless n p ∨ ∃ s, (walk n p).2 = .stopped s ∧ BadAttributes s) := by
  induction n generalizing p q with
  | zero => exact ⟨fun _ => rfl, fun _ => .inl trivial⟩
  | succ n ih =>
    obtain ⟨hsame, hdiffer⟩ := getNextElement_level h
    refine ⟨fun ⟨htag, hcontent⟩ => ?_, fun he => ?_⟩
    · rcases hsame htag with ⟨p', q', hp, hq⟩ | ⟨s, hp, hq⟩ | ⟨p', q', hp, hq, hlevel⟩
      · rw [walk_finished hp, walk_finished hq]
      · rw [walk_error hp, walk_error hq]
      · obtain ⟨hread, hrest⟩ := hcontent p' hp
        rcases (readContent_level hlevel).1 hread with ⟨s, hrp, hrq⟩ | ⟨content, p'', q'', hrp, hrq, hfollows⟩
        · rw [walk_stop hp hrp, walk_stop hq hrq, hlevel.element]
        · rw [walk_cons hp hrp, walk_cons hq hrq, hlevel.element, (ih hfollows).1 (hrest _ _ hrp)]
    · by_cases htag : TagHarmless p
      · rcases hsame htag with ⟨p', q', hp, hq⟩ | ⟨s, hp, hq⟩ | ⟨p', q', hp, hq, hlevel⟩
        · refine .inl ⟨htag, fun p₁ h₁ => ?_⟩
          rw [hp] at h₁
          cases h₁
        · refine .inl ⟨htag, fun p₁ h₁ => ?_⟩
          rw [hp] at h₁
          cases h₁
        · obtain ⟨hread, hcut⟩ := readContent_level hlevel
          by_cases hcontent : ContentHarmless p'
          · rcases hread hcontent with ⟨s, hrp, hrq⟩ | ⟨content, p'', q'', hrp, hrq, hfollows⟩
            · refine .inl ⟨htag, fun p₁ h₁ => ?_⟩
              rw [hp] at h₁
              cases h₁
              refine ⟨hcontent, fun c p₂ h₂ => ?_⟩
              rw [hrp] at h₂
              cases h₂
            · rw [walk_cons hp hrp, walk_cons hq hrq] at he
              obtain ⟨hitems, houtcome⟩ := Prod.mk.inj he
              have hrest := (ih hfollows).2 (Prod.ext (List.cons.inj hitems).2 houtcome)
              rw [walk_cons hp hrp]
              refine hrest.imp_left fun hharmless => ⟨htag, fun p₁ h₁ => ?_⟩
              rw [hp] at h₁
              cases h₁
              refine ⟨hcontent, fun c p₂ h₂ => ?_⟩
              rw [hrp] at h₂
              cases h₂
              exact hharmless
          · obtain ⟨c, c', p'', q'', hrp, hrq, hne⟩ := hcut hcontent
            rw [walk_cons hp hrp, walk_cons hq hrq] at he
            have hitem := (List.cons.inj (Prod.mk.inj he).1).1
            exact absurd (Option.some.inj (Item.mk.inj hitem).2.2.2) hne
      · obtain ⟨s, hs, hbad⟩ := hdiffer htag _ (walk_shown he) rfl
        refine .inr ⟨s, ?_, hbad⟩
        have hp : getNextElement p = .error s := by
          rw [← walk_shown he] at hs
          cases hg : getNextElement p with
          | error t =>
            rw [hg] at hs
            cases hs
            rfl
          | ok r =>
            rw [hg] at hs
            cases hs
        rw [walk_error hp]

/-- A walk over a file is the walk over its text if every refill is harmless; otherwise the two
differ, unless both end in the attributes of a tag. -/
theorem walk_ofFile {pieces : List Bytes} (hne : ∀ c ∈ pieces, c ≠ []) (h0 : ∀ c ∈ pieces.flatten, c ≠ 0)
    (n : Nat) :
    (Harmless n (ofFile pieces) → walk n (ofFile pieces) = walk n (ofString pieces.flatten)) ∧
      (walk n (ofFile pieces) = walk n (ofString pieces.flatten) →
        Harmless n (ofFile pieces) ∨ ∃ s, (walk n (ofFile pieces)).2 = .stopped s ∧ BadAttributes s) := by
  refine walk_level n ⟨⟨hne, ?_⟩, ⟨by simp [ofString], ?_⟩, rfl, rfl, [], List.not_mem_nil, ?_⟩
  · simpa [rest, chunks, ofFile] using h0
  · simpa [rest, chunks, ofString] using h0
  · simp [rest, chunks, ofFile, ofString]

set_option maxRecDepth 4000 in
theorem walk_ofFile_between :
    walk 2 (ofFile [bytes "<a><", bytes "b/>"]) = walk 2 (ofString (bytes "<a><b/>")) := by
  refine (@walk_ofFile [bytes "<a><", bytes "b/>"] (by decide) (by decide) 2).1 ⟨?_, ?_⟩
  · rintro cs ⟨⟩
    exact .inl (by decide)
  · rintro p₁ ⟨⟩
    refine ⟨.inr (.inl (by decide)), ?_⟩
    rintro content p₂ ⟨⟩
    refine ⟨?_, ?_⟩
    · rintro cs ⟨⟩
      exact .inr ⟨by decide, .inl (by decide)⟩
    · rintro p₃ ⟨⟩
      exact ⟨.inl rfl, fun _ _ _ => trivial⟩

theorem walk_ofFile_cut : ¬∀ (pieces : List Bytes) (n : Nat), (∀ c ∈ pieces, c ≠ []) →
    (∀ c ∈ pieces.flatten, c ≠ 0) → walk n (ofFile pieces) = walk n (ofString pieces.flatten) := by
  intro h
  have := h [bytes "<a", bytes ">x</a>"] 1 (by decide) (by decide)
  exact absurd this (by decide)

end Parser

end XML

end Srl
