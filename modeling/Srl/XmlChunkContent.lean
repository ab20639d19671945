import Srl.XmlChunks

namespace Srl

namespace XML

open Bytes

namespace Parser

variable {p : Parser} {cs : List Bytes} {pre post : Bytes}

theorem dropWhile_blank {b : Bytes} (h : blankChunk b = true) : b.dropWhile isspace = [] :=
  List.dropWhile_eq_nil_iff.mpr (List.all_eq_true.mp h)

theorem exists_ink {b : Bytes} (h : blankChunk b = false) (r : Bytes) :
    ∃ c t, b.dropWhile isspace = c :: t ∧ (b ++ r).dropWhile isspace = c :: (t ++ r) := by
  have hne : b.dropWhile isspace ≠ [] := fun he => by
    have := List.all_eq_true.mpr (List.dropWhile_eq_nil_iff.mp he)
    rw [blankChunk, this] at h
    cases h
  obtain ⟨c, t, ht⟩ := List.exists_cons_of_ne_nil hne
  refine ⟨c, t, ht, ?_⟩
  rw [List.dropWhile_append, ht]
  rfl

theorem contentLoop_here {b r : Bytes} {c : UInt8} {t : Bytes} (hb : p.xml.drop p.pos = b)
    (hx : p.xml ≠ []) (hink : blankChunk b = false) (h : (b ++ r).dropWhile isspace = c :: t) (n : Nat) :
    contentLoop (n + 1) p = .ok (decide (c ≠ 60), p) := by
  obtain ⟨c', t', hc', ht'⟩ := exists_ink hink r
  obtain ⟨rfl, -⟩ := List.cons_eq_cons.mp (h.symm.trans ht')
  rw [contentLoop, if_neg fun he => hx (List.eq_nil_of_length_eq_zero he), hb, hc']

theorem contentLoop_next {c : Bytes} (hp : Fed p) (hcs : p.xml_file.getD [] = c :: cs) (hx : p.xml ≠ [])
    (hb : blankChunk (p.xml.drop p.pos) = true) (n : Nat) :
    contentLoop (n + 1) p = contentLoop n (p.next c cs) := by
  have hc := hp.pieces c (by rw [hcs]; exact List.mem_cons_self)
  rw [contentLoop, if_neg fun he => hx (List.eq_nil_of_length_eq_zero he), dropWhile_blank hb]
  dsimp only
  rw [getXML_cons hcs hc]
  rfl

theorem dropWhile_isspace_append {b : Bytes} (h : blankChunk b = true) (r : Bytes) :
    (b ++ r).dropWhile isspace = r.dropWhile isspace := by
  rw [List.dropWhile_append, dropWhile_blank h]
  rfl

/-- The loop of `hasContent` stops in the first chunk that is not blank. -/
theorem contentLoop_ink {c : UInt8} {t : Bytes} (hp : Fed p) (hcs : p.xml_file.getD [] = cs)
    (hx : p.xml ≠ []) (h : p.rest.dropWhile isspace = c :: t) :
    ∃ p', contentLoop p.pieces p = .ok (decide (c ≠ 60), p') ∧ p'.element = p.element ∧ Fed p' ∧
      p'.xml ≠ [] ∧ p'.xml_file.getD [] <:+ p.xml_file.getD [] ∧
      p'.chunks = p.chunks.dropWhile blankChunk := by
  rw [pieces_eq hcs]
  rw [rest_eq, hcs] at h
  induction cs generalizing p with
  | nil =>
    cases hb : blankChunk (p.xml.drop p.pos) with
    | true =>
      rw [dropWhile_isspace_append hb] at h
      cases h
    | false =>
      exact ⟨p, contentLoop_here rfl hx hb h 0, rfl, hp, hx, List.suffix_refl _, by
        rw [chunks, List.dropWhile_cons_of_neg (by simp [hb])]⟩
  | cons d cs ih =>
    cases hb : blankChunk (p.xml.drop p.pos) with
    | true =>
      rw [dropWhile_isspace_append hb] at h
      obtain ⟨p', hloop, he, hfed, hx', hpieces, hchunks⟩ := ih (hp.next hcs) rfl
        (hp.pieces d (by rw [hcs]; exact List.mem_cons_self)) h
      refine ⟨p', ?_, he, hfed, hx', hcs ▸ hpieces.trans (List.suffix_cons d cs), ?_⟩
      · rw [List.length_cons, contentLoop_next hp hcs hx hb]
        exact hloop
      · rw [hchunks, chunks_eq hcs, List.dropWhile_cons_of_pos hb, chunks_next]
    | false =>
      exact ⟨p, contentLoop_here rfl hx hb h _, rfl, hp, hx, List.suffix_refl _, by
        rw [chunks, List.dropWhile_cons_of_neg (by simp [hb])]⟩

theorem blank_of_dropWhile {b r : Bytes} (h : (b ++ r).dropWhile isspace = []) : blankChunk b = true := by
  by_contra hne
  obtain ⟨c, t, -, ht⟩ := exists_ink (Bool.eq_false_iff.mpr hne) r
  rw [ht] at h
  cases h

theorem contentLoop_blank (hp : Fed p) (hcs : p.xml_file.getD [] = cs)
    (hx : p.xml ≠ []) (h : p.rest.dropWhile isspace = []) :
    contentLoop p.pieces p =
      .error (.InvalidXML "could not detect content, no end tag: '%s'" p.element.name) := by
  rw [pieces_eq hcs]
  rw [rest_eq, hcs] at h
  induction cs generalizing p with
  | nil =>
    rw [contentLoop, if_neg fun he => hx (List.eq_nil_of_length_eq_zero he),
      dropWhile_blank (blank_of_dropWhile h)]
    dsimp only
    rw [getXML_nil hcs]
  | cons d cs ih =>
    have hb := blank_of_dropWhile h
    rw [dropWhile_isspace_append hb] at h
    rw [List.length_cons, contentLoop_next hp hcs hx hb]
    exact ih (hp.next hcs) rfl (hp.pieces d (by rw [hcs]; exact List.mem_cons_self)) h

/-- What `parseContent` collects up to a `<` of the document. -/
def Collects (n : Nat) (p : Parser) (text : Bytes) : Prop :=
  ∃ p' content, parseContent n p = .ok p' ∧ p'.element = { p.element with content := content } ∧ Fed p' ∧
    p'.xml_file.getD [] <:+ p.xml_file.getD [] ∧ (p.xml_file.getD [] = [] → p'.rest = p.rest) ∧
    (∃ skipped, 60 ∉ skipped ∧ p.rest = skipped ++ p'.rest) ∧
    (TextWhole p.chunks → content = p.element.content ++ text) ∧
    (¬TextWhole p.chunks → ∃ extra, content = p.element.content ++ text ++ extra ∧ 60 ∈ extra)

theorem collects_here {text post' : Bytes} (hp : Fed p) (hb : p.xml.drop p.pos = text ++ 60 :: post')
    (ht : 60 ∉ text) (n : Nat) : Collects (n + 1) p text := by
  let content := p.element.content ++ if text = [] then p.xml.drop p.pos else text
  have hmem : 60 ∈ p.xml.drop p.pos := by simp [hb]
  refine ⟨{ p with element := { p.element with content := content } }, content, ?_, rfl,
    ⟨hp.pieces, hp.plain⟩, List.suffix_refl _, fun _ => rfl, ⟨[], List.not_mem_nil, rfl⟩, ?_, ?_⟩
  · rw [parseContent, find_of_mem hp (by decide) hb ht]
    dsimp only
    rw [Nat.add_sub_cancel_left, substr_eq_or hb (by simp) hp.plain_drop]
  · intro hwhole
    have hne : text ≠ [] := by
      rintro rfl
      exact hwhole.1 (by rw [hb]; rfl)
    exact congrArg _ (if_neg hne)
  · intro hcut
    have hnil : text = [] := by
      by_contra hne
      obtain ⟨c, text, rfl⟩ := List.exists_cons_of_ne_nil hne
      refine hcut ⟨?_, .inl hmem⟩
      rw [hb]
      simpa using fun he : c = 60 => ht (he ▸ List.mem_cons_self)
    exact ⟨p.xml.drop p.pos, by simp [content, hnil], hmem⟩

/-- The parser behind a boundary inside a content. -/
def keepAt (p : Parser) (c : Bytes) (cs : List Bytes) : Parser :=
  { p with element := { p.element with content := p.element.content ++ p.xml.drop p.pos } }.next c cs

theorem parseContent_next {c : Bytes} (hp : Fed p) (hcs : p.xml_file.getD [] = c :: cs)
    (hb : 60 ∉ p.xml.drop p.pos) (n : Nat) : parseContent (n + 1) p = parseContent n (p.keepAt c cs) := by
  have hc := hp.pieces c (by rw [hcs]; exact List.mem_cons_self)
  have hq : getXML { p with element := { p.element with content := p.element.content ++ p.xml.drop p.pos } } =
      (true, p.keepAt c cs) := getXML_cons hcs hc
  simp only [parseContent, find_of_not_mem (by decide : (60 : UInt8) ≠ 0) hb, substrFrom_eq hp.plain_drop]
  rw [hq]

theorem Fed.keepAt {c : Bytes} (hp : Fed p) (hcs : p.xml_file.getD [] = c :: cs) : Fed (p.keepAt c cs) :=
  ⟨(hp.next hcs).pieces, (hp.next hcs).plain⟩

theorem head_ne_of_not_mem {b : Bytes} {c : UInt8} (h : c ∉ b) : b.head? ≠ some c :=
  fun he => h (List.mem_of_head? he)

theorem parseContent_found {text : Bytes} (hp : Fed p) (hcs : p.xml_file.getD [] = cs)
    (h : p.rest = text ++ 60 :: post) (ht : 60 ∉ text) : Collects p.pieces p text := by
  rw [pieces_eq hcs]
  induction cs generalizing p text with
  | nil =>
    obtain ⟨-, pre', -, hnil⟩ | ⟨post', hb, rfl⟩ := first_of_append (by rw [← rest_eq, h]) ht
    · rw [hcs] at hnil
      simp at hnil
    · exact collects_here hp hb ht 0
  | cons c cs ih =>
    obtain ⟨hb, text', rfl, hr⟩ | ⟨post', hb, rfl⟩ := first_of_append (by rw [← rest_eq, h]) ht
    · have hrest : (p.keepAt c cs).rest = text' ++ 60 :: post := by
        rw [← hr, hcs]
        rfl
      obtain ⟨p', content, hparse, he, hfed, hpieces, -, ⟨skipped, hskip, hrest'⟩, hwhole, hcut⟩ :=
        ih (hp.keepAt hcs) rfl hrest fun hm => ht (List.mem_append_right _ hm)
      have hiff : TextWhole p.chunks ↔ TextWhole (p.keepAt c cs).chunks := by
        rw [chunks_eq hcs]
        exact ⟨fun h => h.2.resolve_left hb, fun h => ⟨head_ne_of_not_mem hb, .inr h⟩⟩
      refine ⟨p', content, ?_, he, hfed, hcs ▸ hpieces.trans (List.suffix_cons c cs), fun h => by simp [hcs] at h,
        ⟨p.xml.drop p.pos ++ skipped, ?_, ?_⟩, ?_, ?_⟩
      · rw [List.length_cons, parseContent_next hp hcs hb]
        exact hparse
      · exact fun hm => (List.mem_append.mp hm).elim hb hskip
      · rw [rest_eq, hcs, List.append_assoc, ← hrest']
        rfl
      · rw [hiff, ← List.append_assoc]
        exact hwhole
      · rw [hiff, ← List.append_assoc]
        exact hcut
    · exact collects_here hp hb ht _

theorem parseContent_missing (hp : Fed p) (hcs : p.xml_file.getD [] = cs) (h : 60 ∉ p.rest) :
    parseContent p.pieces p =
      .error (.InvalidXML "could not parse content, no end tag: '%s'" p.element.name) := by
  rw [pieces_eq hcs]
  induction cs generalizing p with
  | nil =>
    have hq := getXML_nil
      (p := { p with element := { p.element with content := p.element.content ++ p.xml.drop p.pos } }) hcs
    simp only [parseContent, find_of_not_mem (by decide : (60 : UInt8) ≠ 0) (not_mem_drop h),
      substrFrom_eq hp.plain_drop]
    rw [hq]
  | cons c cs ih =>
    rw [List.length_cons, parseContent_next hp hcs (not_mem_drop h)]
    exact ih (hp.keepAt hcs) rfl (not_mem_flatten h hcs)

end Parser

end XML

end Srl
