import Srl.XmlPieces
import Mathlib.Data.List.TakeWhile

namespace Srl

namespace Bytes

theorem substrFrom_eq {s : Bytes} {pos : Nat} (h : ∀ c ∈ s.drop pos, c ≠ 0) :
    s.substrFrom pos = s.drop pos := by
  unfold substrFrom mid
  split
  next hle =>
    unfold ofText
    split
    next => exact cstr_of_ne h
    next => exact List.take_of_length_le (by rw [List.length_drop])
  next hlt => rw [List.drop_eq_nil_of_le (by omega)]

/-- A length of 0 takes the whole rest. -/
theorem substr_eq_or {s text rest : Bytes} {pos : Nat} (hs : s.drop pos = text ++ rest) (hr : rest ≠ [])
    (h0 : ∀ c ∈ s.drop pos, c ≠ 0) :
    s.substr pos text.length = if text = [] then s.drop pos else text := by
  split
  next ht =>
    have hlen : pos + 0 ≤ s.length := by
      have := congrArg List.length hs
      have := List.length_pos_of_ne_nil hr
      simp only [List.length_drop, List.length_append] at *
      omega
    rw [ht, List.length_nil, substr, mid, if_pos hlen, ofText, if_pos rfl, cstr_of_ne h0]
  next ht => exact substr_eq hs ht

/-- The first `c` of a text whose beginning is `b`: in `b`, or behind it. -/
theorem first_of_append {b r pre post : Bytes} {c : UInt8} (h : b ++ r = pre ++ c :: post) (hpre : c ∉ pre) :
    (c ∉ b ∧ ∃ pre', pre = b ++ pre' ∧ r = pre' ++ c :: post) ∨
      ∃ post', b = pre ++ c :: post' ∧ post = post' ++ r := by
  rcases List.append_eq_append_iff.mp h with ⟨pre', hpre', hr⟩ | ⟨post', hb, hc⟩
  · exact .inl ⟨fun hm => hpre (hpre' ▸ List.mem_append_left _ hm), pre', hpre', hr⟩
  · rcases List.cons_eq_append_iff.mp hc with ⟨rfl, hr⟩ | ⟨post', rfl, rfl⟩
    · rw [List.append_nil] at hb
      exact .inl ⟨hb ▸ hpre, [], by rw [hb, List.append_nil], hr⟩
    · exact .inr ⟨post', hb, rfl⟩

end Bytes

namespace XML

open Bytes

namespace Parser

/-- `Parser(FS::TextFile*)`, for a file that `TextFile::read` gives in these pieces. -/
def ofFile (pieces : List Bytes) : Parser := ⟨⟨[], [], [], false, false, 0⟩, some pieces, [], 0⟩

/-- The rest of the buffer, and the pieces that the file still gives. -/
def chunks (p : Parser) : List Bytes := p.xml.drop p.pos :: p.xml_file.getD []

def rest (p : Parser) : Bytes := p.chunks.flatten

/-- The chunks behind the next `<`. -/
def afterOpen : List Bytes → Option (List Bytes)
  | [] => none
  | b :: cs =>
    match b.dropWhile (· ≠ 60) with
    | _ :: b => some (b :: cs)
    | [] => afterOpen cs

/-- No boundary spoils the tag whose text begins with `name`: the `>` is not the first character of
its chunk, and a boundary comes before the name is too long. An empty tag takes the rest of the
chunk for its text and needs all of the document in it. -/
def TagWhole (name : Bytes) : List Bytes → Prop
  | [] => True
  | b :: cs =>
    if 62 ∈ b then b.head? ≠ some 62 ∨ name = [] ∧ cs = []
    else cs = [] ∨ (name ++ b).length ≤ 124 ∧ TagWhole (name ++ b) cs

/-- The `<` that ends a content is not the first character of its chunk. -/
def TextWhole : List Bytes → Prop
  | [] => True
  | b :: cs => b.head? ≠ some 60 ∧ (60 ∈ b ∨ TextWhole cs)

def blankChunk (b : Bytes) : Bool := b.all isspace

/-- No boundary spoils the content: there is none in the white space in front of it, and none right
behind it. -/
def ContentWhole (cs : List Bytes) : Prop :=
  (cs.takeWhile blankChunk).flatten = [] ∧ TextWhole (cs.dropWhile blankChunk)

/-- What a parser needs to read on: pieces with something in them, and text without `NUL`. -/
structure Fed (p : Parser) : Prop where
  pieces : ∀ c ∈ p.xml_file.getD [], c ≠ []
  plain : ∀ c ∈ p.rest, c ≠ 0

theorem rest_eq (p : Parser) : p.rest = p.xml.drop p.pos ++ (p.xml_file.getD []).flatten :=
  List.flatten_cons

theorem chunks_eq {p : Parser} {cs : List Bytes} (h : p.xml_file.getD [] = cs) :
    p.chunks = p.xml.drop p.pos :: cs := by
  rw [chunks, h]

theorem not_mem_drop {p : Parser} {c : UInt8} (h : c ∉ p.rest) : c ∉ p.xml.drop p.pos :=
  fun hm => h (by rw [rest_eq]; exact List.mem_append_left _ hm)

theorem not_mem_flatten {p : Parser} {c : UInt8} {cs : List Bytes} (h : c ∉ p.rest)
    (hcs : p.xml_file.getD [] = cs) : c ∉ cs.flatten :=
  fun hm => h (by rw [rest_eq, hcs]; exact List.mem_append_right _ hm)

theorem getXML_cons {p : Parser} {c : Bytes} {cs : List Bytes} (h : p.xml_file.getD [] = c :: cs)
    (hc : c ≠ []) : p.getXML = (true, { p with xml_file := some cs, xml := c, pos := 0 }) := by
  obtain ⟨element, _ | file, xml, pos⟩ := p
  · cases h
  · obtain rfl : file = c :: cs := h
    simp [getXML, List.length_pos_of_ne_nil hc]

theorem getXML_nil {p : Parser} (h : p.xml_file.getD [] = []) :
    p.getXML = (false, { p with xml := [], pos := 0 }) := by
  obtain ⟨element, _ | file, xml, pos⟩ := p
  · rfl
  · obtain rfl : file = [] := h
    rfl

/-- The state behind a `getXML` that found a piece. -/
def next (p : Parser) (c : Bytes) (cs : List Bytes) : Parser :=
  { p with xml_file := some cs, xml := c, pos := 0 }

@[simp] theorem chunks_next (p : Parser) (c : Bytes) (cs : List Bytes) : (p.next c cs).chunks = c :: cs := rfl

theorem Fed.next {p : Parser} (hp : Fed p) {c : Bytes} {cs : List Bytes}
    (h : p.xml_file.getD [] = c :: cs) : Fed (p.next c cs) := by
  have hmem : ∀ x ∈ (p.next c cs).rest, x ∈ p.rest := by
    intro x hx
    rw [rest_eq, h]
    exact List.mem_append_right _ hx
  exact ⟨fun x hx => hp.pieces x (by rw [h]; exact List.mem_cons_of_mem c hx),
    fun x hx => hp.plain x (hmem x hx)⟩

theorem Fed.plain_drop {p : Parser} (hp : Fed p) : ∀ c ∈ p.xml.drop p.pos, c ≠ 0 :=
  fun c hc => hp.plain c (by rw [rest_eq]; exact List.mem_append_left _ hc)


/-- What a step over the text leaves in place. -/
structure Reaches (p p' : Parser) (rest : Bytes) : Prop where
  fed : Fed p'
  rest : p'.rest = rest
  filled : p'.xml ≠ []
  pieces : p'.xml_file.getD [] <:+ p.xml_file.getD []

theorem Reaches.of_next {p p' : Parser} {c rest : Bytes} {cs : List Bytes} (h : Reaches (p.next c cs) p' rest)
    (hcs : p.xml_file.getD [] = c :: cs) : Reaches p p' rest :=
  ⟨h.fed, h.rest, h.filled, hcs ▸ h.pieces.trans (List.suffix_cons c cs)⟩

variable {p : Parser} {cs : List Bytes} {pre post : Bytes}

theorem find_of_mem {c : UInt8} (hp : Fed p) (hc : c ≠ 0) (hs : p.xml.drop p.pos = pre ++ c :: post)
    (hpre : c ∉ pre) : p.xml.find c p.pos = some (p.pos + pre.length) := by
  refine find_eq hs hc fun x hx => ⟨fun he => hpre (he ▸ hx), hp.plain_drop x ?_⟩
  rw [hs]
  exact List.mem_append_left _ hx

theorem find_of_not_mem {c : UInt8} (hc : c ≠ 0) (h : c ∉ p.xml.drop p.pos) : p.xml.find c p.pos = none :=
  find_eq_none hc fun _ hx he => h (he ▸ hx)

theorem rest_of_drop {q : Parser} (h : q.xml.drop q.pos = post) (hf : q.xml_file.getD [] = cs) :
    q.rest = post ++ cs.flatten := by
  rw [rest_eq, h, hf]

theorem Fed.moved {q : Parser} (hp : Fed p) (hf : q.xml_file = p.xml_file)
    (hs : ∀ c ∈ q.xml.drop q.pos, c ∈ p.xml.drop p.pos) : Fed q := by
  refine ⟨fun c hc => hp.pieces c (hf ▸ hc), fun c hc => hp.plain c ?_⟩
  rw [rest_eq, hf] at hc
  rw [rest_eq]
  rcases List.mem_append.mp hc with hc | hc
  · exact List.mem_append_left _ (hs c hc)
  · exact List.mem_append_right _ hc

theorem drop_succ_of_drop {s : Bytes} {pos : Nat} {c : UInt8} (h : s.drop pos = pre ++ c :: post) :
    s.drop (pos + pre.length + 1) = post := by
  have := drop_add_of_drop (pre ++ [c]) (by simpa using h)
  simpa [Nat.add_assoc] using this

theorem ne_nil_of_drop {s : Bytes} {pos : Nat} {c : UInt8} (h : s.drop pos = pre ++ c :: post) : s ≠ [] := by
  rintro rfl
  simp at h

theorem afterOpen_found {b : Bytes} (hb : b = pre ++ 60 :: post) (hpre : 60 ∉ pre) (cs : List Bytes) :
    afterOpen (b :: cs) = some (post :: cs) := by
  have hdrop : b.dropWhile (· ≠ 60) = 60 :: post := by
    rw [hb, List.dropWhile_append_of_pos fun x hx => by simpa using fun he : x = 60 => hpre (he ▸ hx)]
    simp
  rw [afterOpen, hdrop]

theorem afterOpen_missing {b : Bytes} (hb : 60 ∉ b) (cs : List Bytes) : afterOpen (b :: cs) = afterOpen cs := by
  have hdrop : b.dropWhile (· ≠ 60) = [] :=
    List.dropWhile_eq_nil_iff.mpr fun x hx => by simpa using fun he : x = 60 => hb (he ▸ hx)
  rw [afterOpen, hdrop]

theorem pieces_eq (h : p.xml_file.getD [] = cs) : p.pieces = cs.length + 1 := by rw [pieces, h]

theorem openTag_here {post' : Bytes} (hp : Fed p) (hb : p.xml.drop p.pos = pre ++ 60 :: post')
    (hpre : 60 ∉ pre) (n : Nat) :
    ∃ p', openTag (n + 1) p = .ok (true, p') ∧ p'.element = p.element ∧
      Reaches p p' (post' ++ (p.xml_file.getD []).flatten) ∧ afterOpen p.chunks = some p'.chunks := by
  have hdrop := drop_succ_of_drop hb
  let p' : Parser := { p with pos := p.pos + pre.length + 1 }
  have hmoved : Fed p' := hp.moved rfl fun c hc => by
    rw [hb]
    rw [hdrop] at hc
    exact List.mem_append_right _ (List.mem_cons_of_mem _ hc)
  refine ⟨p', ?_, rfl, ⟨hmoved, rest_of_drop hdrop rfl, ne_nil_of_drop hb, List.suffix_refl _⟩, ?_⟩
  · rw [openTag, find_of_mem hp (by decide) hb hpre]
  · rw [chunks, afterOpen_found hb hpre, chunks, hdrop]

theorem openTag_found (hp : Fed p) (hcs : p.xml_file.getD [] = cs) (h : p.rest = pre ++ 60 :: post)
    (hpre : 60 ∉ pre) : ∃ p', openTag p.pieces p = .ok (true, p') ∧ p'.element = p.element ∧
      Reaches p p' post ∧ afterOpen p.chunks = some p'.chunks := by
  rw [pieces_eq hcs]
  induction cs generalizing p pre with
  | nil =>
    obtain ⟨-, pre', -, hnil⟩ | ⟨post', hb, rfl⟩ := first_of_append (by rw [← rest_eq, h]) hpre
    · rw [hcs] at hnil
      simp at hnil
    · exact openTag_here hp hb hpre 0
  | cons c cs ih =>
    obtain ⟨hb, pre', rfl, hr⟩ | ⟨post', hb, rfl⟩ := first_of_append (by rw [← rest_eq, h]) hpre
    · have hrest : (p.next c cs).rest = pre' ++ 60 :: post := by
        rw [← hr, hcs]
        rfl
      obtain ⟨p', hp', he, hreach, hafter⟩ := ih (hp.next hcs) rfl hrest
        fun hm => hpre (List.mem_append_right _ hm)
      have hc := hp.pieces c (by rw [hcs]; exact List.mem_cons_self)
      rw [chunks_eq hcs, afterOpen_missing hb]
      refine ⟨p', ?_, he, hreach.of_next hcs, hafter⟩
      simp only [List.length_cons, openTag, find_of_not_mem (by decide : (60 : UInt8) ≠ 0) hb,
        getXML_cons hcs hc]
      exact hp'
    · exact openTag_here hp hb hpre _

theorem openTag_missing (hp : Fed p) (hcs : p.xml_file.getD [] = cs) (h : 60 ∉ p.rest) :
    (∃ p', openTag p.pieces p = .ok (false, p')) ∧ afterOpen p.chunks = none := by
  rw [pieces_eq hcs]
  induction cs generalizing p with
  | nil =>
    have hb := not_mem_drop h
    rw [chunks_eq hcs, afterOpen_missing hb]
    refine ⟨⟨{ p with xml := [], pos := 0 }, ?_⟩, rfl⟩
    simp only [openTag, find_of_not_mem (by decide : (60 : UInt8) ≠ 0) hb, getXML_nil hcs]
  | cons c cs ih =>
    have hb := not_mem_drop h
    obtain ⟨⟨p', hp'⟩, hafter⟩ := ih (hp.next hcs) rfl (not_mem_flatten h hcs)
    have hc := hp.pieces c (by rw [hcs]; exact List.mem_cons_self)
    rw [chunks_eq hcs, afterOpen_missing hb]
    refine ⟨⟨p', ?_⟩, hafter⟩
    simp only [List.length_cons, openTag, find_of_not_mem (by decide : (60 : UInt8) ≠ 0) hb,
      getXML_cons hcs hc]
    exact hp'

end Parser

end XML

end Srl
