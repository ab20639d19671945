import Srl.XmlBackwards

namespace Srl

open Bytes

namespace XML

open XML.Parser

namespace Stretch

variable {t u : Stretch} {ts : List Stretch} {tail rest pre gap xml : Bytes} {p q : Parser} {i : Nat}

theorem last_of_mem {c : UInt8} {s : Bytes} (h : c ∈ s) : ∃ x y, s = x ++ c :: y ∧ c ∉ y := by
  obtain ⟨x, y, hxy, hx⟩ := List.eq_append_cons_of_mem (List.mem_reverse.mpr h)
  refine ⟨y.reverse, x.reverse, ?_, fun hc => hx (List.mem_reverse.mp hc)⟩
  have := congrArg List.reverse hxy
  simpa using this

theorem openBefore_last {u v w : Bytes} {pos : Nat} (hs : xml = u ++ 60 :: (v ++ w)) (hv : 60 ∉ v)
    (hpos : pos = u.length + v.length + 1) (h1 : pos ≠ 1) : openBefore xml pos = some u.length := by
  have hlen : u.length + v.length < xml.length := by
    rw [hs]
    simp only [List.length_append, List.length_cons]
    omega
  rw [hpos, openBefore, rfind, if_neg (by omega), if_neg (by omega)]
  exact rfindLoop_found (by decide) hs hv rfl

theorem openBefore_first {u w : Bytes} (hs : xml = u ++ w) (hu : 60 ∉ u) (h1 : u.length ≠ 1) :
    openBefore xml u.length = none := by
  have hle : u.length ≤ xml.length := by
    rw [hs, List.length_append]
    omega
  cases hlen : u.length with
  | zero => rfl
  | succ k =>
    rw [openBefore, rfind, if_neg (by omega), if_neg (by omega)]
    exact rfindLoop_missing (by decide) hs hu hlen.symm

/-- A `<` at index 1 sends the search to the end of the string. -/
theorem openBefore_one (h : 60 ∈ xml) : ∃ pos, openBefore xml 1 = some pos ∧ pos < xml.length := by
  obtain ⟨u, v, hs, hv⟩ := last_of_mem h
  have hlen : xml.length = u.length + v.length + 1 := by
    rw [hs]
    simp only [List.length_append, List.length_cons]
    omega
  have hend : xml.charAt (u.length + v.length + 1) = 0 := by
    rw [charAt, ← hlen, List.getD_eq_default _ _ (Nat.le_refl _)]
  refine ⟨u.length, ?_, by omega⟩
  rw [openBefore, rfind, if_neg (Nat.not_lt_zero _), if_pos rfl, hlen, rfindLoop, hend, if_neg (by decide)]
  exact rfindLoop_found (w := []) (by decide) (by rw [hs, List.append_nil]) hv rfl

/-- A search from behind a `<` does not end in front of it. -/
theorem openBefore_ge {x y : Nat} (hy : xml[y]? = some 60) (hyx : y < x) (hx : x ≤ xml.length) :
    ∃ z, openBefore xml x = some z ∧ y ≤ z ∧ z < xml.length := by
  by_cases h1 : x = 1
  · obtain ⟨z, hz, hlt⟩ := openBefore_one (List.mem_of_getElem? hy)
    exact ⟨z, h1 ▸ hz, by omega, hlt⟩
  · have hmem : 60 ∈ xml.take x := by
      refine List.mem_of_getElem? (i := y) ?_
      rw [List.getElem?_take_of_lt hyx]
      exact hy
    obtain ⟨u, v, htake, hv⟩ := last_of_mem hmem
    have hsplit : xml = u ++ 60 :: (v ++ xml.drop x) := by
      conv_lhs => rw [← List.take_append_drop x xml, htake]
      rw [List.append_assoc, List.cons_append]
    have hlen := congrArg List.length htake
    rw [List.length_take, Nat.min_eq_left hx, List.length_append, List.length_cons] at hlen
    refine ⟨u.length, openBefore_last hsplit hv (by omega) h1, ?_, by omega⟩
    by_contra hlt
    rw [hsplit, List.getElem?_append_right (by omega)] at hy
    obtain ⟨k, hk⟩ := Nat.exists_eq_add_of_lt (Nat.lt_of_not_le hlt)
    rw [show y - u.length = k + 1 by omega, List.getElem?_cons_succ, List.getElem?_append_left (by omega)] at hy
    exact hv (List.mem_of_getElem? hy)

theorem openBefore_tag (hxml : xml = pre ++ (t.render ++ (gap ++ rest))) (hgap : 60 ∉ gap) (ht : 60 ∉ t.tag) :
    openBefore xml (pre.length + t.render.length + gap.length) = some (pre.length + t.text.length) := by
  rw [← @List.length_append _ pre t.text]
  refine openBefore_last (v := t.tag ++ 62 :: gap) (w := rest) ?_ ?_ ?_ ?_
  · rw [hxml, render_append]
    simp
  · intro hmem
    rcases List.mem_append.mp hmem with hmem | hmem
    · exact ht hmem
    · exact hgap ((List.mem_cons.mp hmem).resolve_left (by decide))
  · rw [length_render]
    simp only [List.length_append, List.length_cons]
    omega
  · rw [length_render]
    omega

theorem parse_tag (hxml : p.xml = pre ++ (t.render ++ rest)) :
    parseElement { p with element := p.element.clear, pos := pre.length + t.text.length + 1 } =
      (made p.element.is_closing (t.readTag rest)).map fun e =>
        { p with element := e, pos := pre.length + t.render.length } := by
  have hdrop : p.xml.drop (pre.length + t.text.length + 1) = t.tag ++ 62 :: rest := by
    rw [hxml, render_append, Nat.add_assoc, ← List.drop_drop, List.drop_left, ← List.drop_drop, List.drop_left]
    rfl
  have hparse := parseElement_here (p := { p with pos := pre.length + t.text.length + 1 }) t.tag_plain hdrop
  have hpos : pre.length + t.text.length + 1 + t.tag.length + 1 = pre.length + t.render.length := by
    rw [length_render]
    omega
  dsimp only at hparse
  rw [hpos, substr_readTag hdrop, finishTag_clear] at hparse
  exact hparse

/-- A call from behind a tag comes to the tag in front of it. -/
theorem getPreviousElement_step (hxml : p.xml = pre ++ (t.render ++ (u.render ++ rest))) (ht : 60 ∉ t.tag)
    (hu : 60 ∉ u.tag)
    (hpos : p.pos = pre.length + t.render.length + u.render.length) :
    getPreviousElement p = (made p.element.is_closing (t.readTag (u.render ++ rest))).map fun e =>
      (true, { p with element := e, pos := pre.length + t.render.length }) := by
  have hfirst : openBefore p.xml p.pos = some (pre.length + t.render.length + u.text.length) := by
    have hxml' : p.xml = (pre ++ t.render) ++ (u.render ++ ([] ++ rest)) := by
      rw [hxml, List.append_assoc, List.nil_append]
    have hopen := openBefore_tag hxml' List.not_mem_nil hu
    rwa [List.length_append, List.length_nil, Nat.add_zero, ← hpos] at hopen
  have hsecond : openBefore p.xml (pre.length + t.render.length + u.text.length) =
      some (pre.length + t.text.length) := by
    have hxml' := hxml
    rw [render_append u] at hxml'
    exact openBefore_tag hxml' (fun h => (u.text_plain 60 h).1 rfl) ht
  rw [getPreviousElement, hfirst, Option.bind_some, hsecond]
  dsimp only
  rw [parse_tag hxml]
  cases made p.element.is_closing (t.readTag (u.render ++ rest)) <;> rfl

/-- In front of the first tag there is nothing more to find. -/
theorem getPreviousElement_first (hxml : p.xml = t.render ++ rest) (ht : 60 ∉ t.tag) (h1 : t.text.length ≠ 1)
    (hpos : p.pos = t.render.length) : getPreviousElement p = .ok (false, { p with xml := [], pos := 0 }) := by
  have hfirst : openBefore p.xml p.pos = some t.text.length := by
    have hopen := @openBefore_tag _ _ [] [] _ hxml List.not_mem_nil ht
    simpa [← hpos] using hopen
  have hsecond : openBefore p.xml t.text.length = none := by
    rw [render_append] at hxml
    exact openBefore_first hxml (fun h => (t.text_plain 60 h).1 rfl) h1
  rw [getPreviousElement, hfirst, Option.bind_some, hsecond]

/-- Behind the second `<` of a tag a call does not return `NULL`, and it does not come to the front of that `<`. -/
theorem getPreviousElement_kept {x y : Nat} {found : Bool} (hf : p.xml_file = none) (hle : p.pos ≤ p.xml.length)
    (hx : p.xml[x]? = some 60) (hy : p.xml[y]? = some 60) (hxy : x < y)
    (hclose : ∀ i, x < i → i < y → p.xml[i]? ≠ some 62)
    (hpos : y < p.pos) (h : getPreviousElement p = .ok (found, q)) :
    found = true ∧ q.xml_file = none ∧ q.xml = p.xml ∧ q.pos ≤ p.xml.length ∧ y < q.pos := by
  obtain ⟨z, hz, hyz, hzlt⟩ := openBefore_ge hy hpos hle
  obtain ⟨w, hw, hxw, hwlt⟩ := openBefore_ge hx (Nat.lt_of_lt_of_le hxy hyz) (Nat.le_of_lt hzlt)
  rw [getPreviousElement, hz, Option.bind_some, hw] at h
  dsimp only at h
  cases hparse : parseElement { p with element := p.element.clear, pos := w + 1 } with
  | error s =>
    rw [hparse] at h
    cases h
  | ok q' =>
    rw [hparse] at h
    obtain ⟨rfl, rfl⟩ := Prod.mk.inj (Except.ok.inj h)
    obtain ⟨hfile, hxml, epos, hepos, hend⟩ :=
      parseElement_close (p := { p with element := p.element.clear, pos := w + 1 }) hf hparse
    obtain ⟨text, rest, hdrop, rfl, -⟩ := find_some (by decide) hepos
    have hget : p.xml[w + 1 + text.length]? = some 62 := by
      have := congrArg (fun s : Bytes => s[text.length]?) hdrop
      rwa [List.getElem?_drop, List.getElem?_append_right (Nat.le_refl _), Nat.sub_self] at this
    have hhigh := (List.getElem?_eq_some_iff.mp hget).1
    dsimp only at hend
    have hnot : ¬w + 1 + text.length < y := fun hlt => hclose _ (by omega) hlt hget
    exact ⟨rfl, hfile, hxml, by omega, by omega⟩

theorem calls_kept {x y n : Nat} {xs : List (Option Element)} (hf : p.xml_file = none) (hle : p.pos ≤ p.xml.length)
    (hx : p.xml[x]? = some 60) (hy : p.xml[y]? = some 60) (hxy : x < y)
    (hclose : ∀ i, x < i → i < y → p.xml[i]? ≠ some 62)
    (hpos : y < p.pos) (h : calls getPreviousElement n p = .ok (xs, q)) : none ∉ xs := by
  induction n generalizing p xs with
  | zero =>
    obtain ⟨rfl, -⟩ := Prod.mk.inj (Except.ok.inj h)
    exact List.not_mem_nil
  | succ n ih =>
    obtain ⟨found, p', ys, hcall, hrest, rfl⟩ := calls_succ_ok.mp h
    obtain ⟨rfl, hf', hxml, hle', hpos'⟩ := getPreviousElement_kept hf hle hx hy hxy hclose hpos hcall
    rw [← hxml] at hx hy hle' hclose
    intro hmem
    rcases List.mem_cons.mp hmem with hnone | hmem
    · cases hnone
    · exact ih hf' hle' hx hy hclose hpos' hrest hmem

/-- A parser of the document behind its first `i` tags. -/
structure Behind (p : Parser) (ts : List Stretch) (tail : Bytes) (i : Nat) : Prop where
  file : p.xml_file = none
  xml : p.xml = renderAll ts ++ tail
  pos : p.pos = (renderAll (ts.take i)).length

theorem Behind.clean {n : Nat} {xs : List (Option Element)} (h : Behind p ts tail i)
    (hcalls : calls getPreviousElement n p = .ok (xs, q)) (hnone : none ∈ xs) : ∀ t ∈ ts.take i, 60 ∉ t.tag := by
  intro t ht hmem
  obtain ⟨a, b, htag, hb⟩ := last_of_mem hmem
  obtain ⟨us, vs, hsplit⟩ := List.append_of_mem ht
  have hxml : p.xml = renderAll us ++ (t.text ++ 60 ::
      (a ++ 60 :: (b ++ 62 :: (renderAll vs ++ (renderAll (ts.drop i) ++ tail))))) := by
    rw [h.xml]
    conv_lhs => rw [← List.take_append_drop i ts, hsplit]
    simp [renderAll, render, htag]
  have hlen : p.pos = (renderAll us).length + t.render.length + (renderAll vs).length := by
    rw [h.pos, hsplit]
    simp [renderAll, Nat.add_assoc]
  have hle : p.pos ≤ p.xml.length := by
    have := congrArg List.length h.xml
    rw [← List.take_append_drop i ts, renderAll, List.flatMap_append, List.append_assoc, List.length_append] at this
    rw [h.pos, renderAll]
    omega
  rw [length_render, htag, List.length_append, List.length_cons] at hlen
  refine calls_kept (x := (renderAll us).length + t.text.length)
    (y := (renderAll us).length + t.text.length + 1 + a.length)
    h.file hle ?_ ?_ (by omega) ?_ (by omega) hcalls hnone
  · rw [hxml, List.getElem?_append_right (by omega), List.getElem?_append_right (by omega),
      show (renderAll us).length + t.text.length - (renderAll us).length - t.text.length = 0 by omega]
    rfl
  · rw [hxml, List.getElem?_append_right (by omega), List.getElem?_append_right (by omega),
      show (renderAll us).length + t.text.length + 1 + a.length - (renderAll us).length - t.text.length =
        a.length + 1 by omega,
      List.getElem?_cons_succ, List.getElem?_append_right (Nat.le_refl _), Nat.sub_self]
    rfl
  · intro k hxk hky hget
    rw [hxml, List.getElem?_append_right (by omega), List.getElem?_append_right (by omega),
      show k - (renderAll us).length - t.text.length = (k - (renderAll us).length - t.text.length - 1) + 1 by omega,
      List.getElem?_cons_succ, List.getElem?_append_left (by omega)] at hget
    have ha : 62 ∈ t.tag := htag ▸ List.mem_append_left _ (List.mem_of_getElem? hget)
    exact (t.tag_plain 62 ha).1 rfl

theorem getElem_readTags (hi : i < ts.length) (tail : Bytes) :
    (readTags tail ts)[i]? = some (ts[i].readTag (renderAll (ts.drop (i + 1)) ++ tail)) := by
  induction ts generalizing i with
  | nil => exact absurd hi (Nat.not_lt_zero i)
  | cons t ts ih =>
    cases i with
    | zero => rfl
    | succ i => exact ih (Nat.lt_of_succ_lt_succ hi)

theorem closing_made {stale : Bool} {text : Bytes} {e : Element} (h : made stale text = .ok e) :
    closing e.is_closing text = e.is_closing := by
  rw [(made_ok h).1, closing_eq_iff]
  intro hi
  rw [closing, if_pos hi]

/-- One call back from the second of two tags. -/
theorem Behind.step {stale : Bool} {es : List Element} (h : Behind p ts tail (i + 2)) (hi : i + 1 < ts.length)
    (hwalks : Walks tail stale ts es) (hclean : ∀ t ∈ ts.take (i + 2), 60 ∉ t.tag) :
    ∃ e text q, es[i]? = some e ∧ (readTags tail ts)[i]? = some text ∧ closing e.is_closing text = e.is_closing ∧
      getPreviousElement p = .ok (true, q) ∧ q.element = { e with is_closing := closing p.element.is_closing text } ∧
      Behind q ts tail (i + 1) := by
  obtain ⟨stale', e, he, hmade⟩ := hwalks.get (i := i) (by omega)
  have hxml : p.xml = renderAll (ts.take i) ++ (ts[i].render ++
      (ts[i + 1].render ++ (renderAll (ts.drop (i + 2)) ++ tail))) := by
    rw [h.xml, renderAll_split (by omega : i < ts.length), List.drop_eq_getElem_cons hi, renderAll_cons,
      List.append_assoc]
  have hclean' : ∀ j, (hj : j < ts.length) → j < i + 2 → 60 ∉ ts[j].tag := by
    intro j hj hji
    refine hclean _ (List.mem_of_getElem? (i := j) ?_)
    rw [List.getElem?_take_of_lt hji, List.getElem?_eq_getElem hj]
  have hpos : p.pos = (renderAll (ts.take i)).length + ts[i].render.length + ts[i + 1].render.length := by
    rw [h.pos, length_take_succ hi, length_take_succ (by omega : i < ts.length)]
  have htext : ts[i].readTag (ts[i + 1].render ++ (renderAll (ts.drop (i + 2)) ++ tail)) =
      ts[i].readTag (renderAll (ts.drop (i + 1)) ++ tail) := by
    rw [List.drop_eq_getElem_cons hi, renderAll_cons, List.append_assoc]
  have hcall := getPreviousElement_step hxml (hclean' i (by omega) (by omega)) (hclean' (i + 1) hi (by omega)) hpos
  rw [htext, (made_ok hmade).2] at hcall
  refine ⟨e, _, _, he, getElem_readTags (by omega) tail, closing_made hmade, hcall, rfl, h.file, h.xml, ?_⟩
  exact (length_take_succ (by omega)).symm

theorem Behind.first (h : Behind p ts tail 1) (hlen : 0 < ts.length) (hclean : 60 ∉ ts[0].tag) :
    (∃ q, getPreviousElement p = .ok (false, q)) ↔ ts[0].text.length ≠ 1 := by
  have hxml : p.xml = ts[0].render ++ (renderAll (ts.drop 1) ++ tail) := by
    rw [h.xml, renderAll_split hlen]
    rfl
  have hpos : p.pos = ts[0].render.length := by
    rw [h.pos, length_take_succ hlen]
    exact Nat.zero_add _
  constructor
  · rintro ⟨q, hq⟩ h1
    have hfirst : openBefore p.xml p.pos = some ts[0].text.length := by
      have hopen := @openBefore_tag _ _ [] [] _ hxml List.not_mem_nil hclean
      simpa [← hpos] using hopen
    obtain ⟨z, hz, -⟩ := @openBefore_one p.xml (by rw [hxml, render_append]; simp)
    rw [getPreviousElement, hfirst, Option.bind_some, h1, hz] at hq
    dsimp only at hq
    cases hparse : parseElement { p with element := p.element.clear, pos := z + 1 } with
    | error s =>
      rw [hparse] at hq
      cases hq
    | ok p' =>
      rw [hparse] at hq
      cases hq
  · exact fun h1 => ⟨_, getPreviousElement_first hxml hclean h1 hpos⟩

/-- A walk back over tags without a `<` of their own gives the elements of the walk there exactly if it ends,
and if no tag takes over another closing flag than the first time. -/
theorem Behind.calls_iff {stale : Bool} {es : List Element} (h : Behind p ts tail (i + 1)) (hi : i < ts.length)
    (hwalks : Walks tail stale ts es) (hclean : ∀ t ∈ ts.take (i + 1), 60 ∉ t.tag)
    (hflag : (es.map (·.is_closing))[i]? = some p.element.is_closing) :
    (∃ q, calls getPreviousElement (i + 1) p = .ok ((es.take i).reverse.map some ++ [none], q)) ↔
      (∀ t ∈ ts.head?, t.text.length ≠ 1) ∧ ∀ j < i, ∀ text, (readTags tail ts)[j]? = some text → Inherits text →
        (es.map (·.is_closing))[j + 1]? = (es.map (·.is_closing))[j]? := by
  induction i generalizing p with
  | zero =>
    have hfirst := h.first hi (hclean _ (by
      rw [List.take_add_one, List.getElem?_eq_getElem hi]
      simp))
    have hhead : (∀ t ∈ ts.head?, t.text.length ≠ 1) ↔ ts[0].text.length ≠ 1 := by
      rw [List.head?_eq_getElem?, List.getElem?_eq_getElem hi]
      simp
    rw [hhead, ← hfirst, and_iff_left fun j hj => absurd hj (Nat.not_lt_zero j)]
    constructor
    · rintro ⟨q, hq⟩
      obtain ⟨found, p', xs, hcall, -, hxs⟩ := calls_succ_ok.mp hq
      cases found with
      | false => exact ⟨p', hcall⟩
      | true => cases (List.cons.inj hxs).1
    · rintro ⟨q, hq⟩
      exact ⟨q, calls_succ_ok.mpr ⟨false, q, [], hq, rfl, rfl⟩⟩
  | succ i ih =>
    obtain ⟨e, text, p', he, htext, hclosing, hcall, helem, hbehind⟩ := h.step hi hwalks hclean
    have hes : (es.take (i + 1)).reverse.map some = some e :: (es.take i).reverse.map some := by
      rw [List.take_add_one, he]
      simp
    have hflags : (es.map (·.is_closing))[i]? = some e.is_closing := by rw [List.getElem?_map, he, Option.map_some]
    have hhead : p'.element = e ↔ (Inherits text → p.element.is_closing = e.is_closing) := by
      rw [helem, ← closing_eq_iff, hclosing]
      constructor
      · exact fun heq => congrArg Element.is_closing heq
      · intro heq
        rw [heq]
    have hnew : (∀ j < i + 1, ∀ text, (readTags tail ts)[j]? = some text → Inherits text →
        (es.map (·.is_closing))[j + 1]? = (es.map (·.is_closing))[j]?) ↔
        (Inherits text → p.element.is_closing = e.is_closing) ∧
          ∀ j < i, ∀ text, (readTags tail ts)[j]? = some text → Inherits text →
            (es.map (·.is_closing))[j + 1]? = (es.map (·.is_closing))[j]? := by
      rw [Nat.forall_lt_succ_right, and_comm, htext, hflag, hflags]
      simp
    have hcons : (∃ q, calls getPreviousElement (i + 2) p = .ok (some e :: (es.take i).reverse.map some ++ [none], q)) ↔
        p'.element = e ∧ ∃ q, calls getPreviousElement (i + 1) p' =
          .ok ((es.take i).reverse.map some ++ [none], q) := by
      constructor
      · rintro ⟨q, hq⟩
        obtain ⟨found, p'', xs, hcall', hrest, hxs⟩ := calls_succ_ok.mp hq
        cases hcall.symm.trans hcall'
        obtain ⟨hfirst, rfl⟩ := List.cons.inj hxs
        exact ⟨(Option.some.inj hfirst).symm, q, hrest⟩
      · rintro ⟨rfl, q, hq⟩
        exact ⟨q, calls_succ_ok.mpr ⟨true, p', _, hcall, hq, rfl⟩⟩
    rw [hes, hnew, hcons, hhead, and_left_comm]
    refine and_congr_right fun hkept => ih hbehind (by omega) (fun t ht => hclean t ?_) ?_
    · rw [List.take_add_one]
      exact List.mem_append_left _ ht
    · rw [hhead.mpr hkept]
      exact hflags

theorem Behind.finds {stale : Bool} {es : List Element} (h : Behind p ts tail (i + 1)) (hi : i < ts.length)
    (hwalks : Walks tail stale ts es) (hclean : ∀ t ∈ ts.take (i + 1), 60 ∉ t.tag)
    (hstart : ∀ t ∈ ts.head?, t.text.length ≠ 1)
    (name : Bytes) (is_closing : Bool) : ∃ rounds r, findPreviousElement name is_closing rounds p = .ok r := by
  induction i generalizing p with
  | zero =>
    have hhead : ts[0].text.length ≠ 1 := hstart _ (by rw [List.head?_eq_getElem?, List.getElem?_eq_getElem hi]; rfl)
    obtain ⟨q, hq⟩ := (h.first hi (hclean _ (by
      rw [List.take_add_one, List.getElem?_eq_getElem hi]
      simp))).mpr hhead
    refine ⟨1, (false, q), ?_⟩
    rw [findPreviousElement, hq]
  | succ i ih =>
    obtain ⟨e, text, p', -, -, -, hcall, -, hbehind⟩ := h.step hi hwalks hclean
    obtain ⟨rounds, r, hr⟩ := ih hbehind (by omega) fun t ht => hclean t (by
      rw [List.take_add_one]
      exact List.mem_append_left _ ht)
    by_cases hname : p'.element.name.same name ∧ p'.element.is_closing = is_closing
    · refine ⟨1, (true, p'), ?_⟩
      rw [findPreviousElement, hcall]
      exact if_pos hname
    · refine ⟨rounds + 1, r, ?_⟩
      rw [findPreviousElement, hcall]
      exact (if_neg hname).trans hr

/-- The documents whose first elements can be walked back: the first `<` is not the second character, no tag has a `<`
inside, and where a declaration took its closing flag from the element before it, that behind it has the same one. -/
structure Reversible (ts : List Stretch) (tail : Bytes) : Prop where
  start : ∀ t ∈ ts.head?, t.text.length ≠ 1
  tags : ∀ t ∈ ts, 60 ∉ t.tag
  flags : ∀ j, j + 1 < ts.length → ∀ text, (readTags tail ts)[j]? = some text → Inherits text →
    (closings false (readTags tail ts))[j + 1]? = (closings false (readTags tail ts))[j]?

/-- Behind `n` elements the calls of `getPreviousElement` give the elements in front of the last one and then `NULL`,
and every `findPreviousElement` ends, exactly if the document is reversible up to there. -/
theorem getPreviousElement_iff {n : Nat} {es : List Element} (hn : 2 ≤ n)
    (h : calls getNextElement n (ofString xml) = .ok (es.map some, p)) :
    ∃ ts tail, ts.length = n ∧ xml = renderAll ts ++ tail ∧
      (((∃ q, calls getPreviousElement n p = .ok (es.dropLast.reverse.map some ++ [none], q)) ∧
        ∀ name is_closing, ∃ rounds r, findPreviousElement name is_closing rounds p = .ok r) ↔ Reversible ts tail) := by
  obtain ⟨ts, tail, hlen, hxml, hwalks, hp⟩ := walks_of_calls rfl h
  have hxml : xml = renderAll ts ++ tail := hxml
  have hwalks : Walks tail false ts es := hwalks
  refine ⟨ts, tail, hlen, hxml, ?_⟩
  obtain ⟨i, rfl⟩ := Nat.exists_eq_add_of_le' (show 1 ≤ n by omega)
  have hes : es.length = i + 1 := by rw [← hlen, hwalks.length]
  have htake : ts.take (i + 1) = ts := List.take_of_length_le (Nat.le_of_eq hlen)
  have hbehind : Behind p ts tail (i + 1) := by
    rw [hp]
    exact ⟨rfl, hxml, by rw [htake]; exact Nat.zero_add _⟩
  have hdrop : es.dropLast = es.take i := by rw [List.dropLast_eq_take, hes, Nat.add_sub_cancel]
  have hflag : (es.map (·.is_closing))[i]? = some p.element.is_closing := by
    obtain ⟨stale, e, he, -⟩ := hwalks.get (i := i) (by omega)
    have hlast : es.getLast? = some e := by rw [List.getLast?_eq_getElem?, hes, Nat.add_sub_cancel, he]
    rw [hp, hlast, List.getElem?_map, he]
    rfl
  rw [hdrop]
  constructor
  · rintro ⟨⟨q, hq⟩, -⟩
    have hclean : ∀ t ∈ ts.take (i + 1), 60 ∉ t.tag := hbehind.clean hq (List.mem_append_right _ List.mem_cons_self)
    obtain ⟨hstart, hflags⟩ := (hbehind.calls_iff (by omega) hwalks hclean hflag).mp ⟨q, hq⟩
    rw [hwalks.closings] at hflags
    exact ⟨hstart, htake ▸ hclean, fun j hj => hflags j (by omega)⟩
  · rintro ⟨hstart, hclean, hflags⟩
    rw [← hwalks.closings] at hflags
    rw [← htake] at hclean
    exact ⟨(hbehind.calls_iff (by omega) hwalks hclean hflag).mpr ⟨hstart, fun j hj => hflags j (by omega)⟩,
      hbehind.finds (by omega) hwalks hclean hstart⟩

theorem getPreviousElement_iff_two : ∃ ts tail, ts.length = 2 ∧ bytes "<a><b></b></a>" = renderAll ts ++ tail ∧
    (((∃ q, calls getPreviousElement 2 ⟨⟨bytes "b", [], [], false, false, 0⟩, none, bytes "<a><b></b></a>", 6⟩ =
        .ok ([some ⟨bytes "a", [], [], false, false, 0⟩, none], q)) ∧
      ∀ name is_closing, ∃ rounds r, findPreviousElement name is_closing rounds
        ⟨⟨bytes "b", [], [], false, false, 0⟩, none, bytes "<a><b></b></a>", 6⟩ = .ok r) ↔ Reversible ts tail) :=
  @getPreviousElement_iff _ _ _ [⟨bytes "a", [], [], false, false, 0⟩, ⟨bytes "b", [], [], false, false, 0⟩]
    (Nat.le_refl 2) (by decide)

/-- A line break in front of the first tag: the call behind the first element comes to the last tag. -/
theorem not_getPreviousElement : ¬∀ (xml : Bytes) (n : Nat) (es : List Element) (p : Parser), 2 ≤ n →
    calls getNextElement n (ofString xml) = .ok (es.map some, p) →
    (∃ q, calls getPreviousElement n p = .ok (es.dropLast.reverse.map some ++ [none], q)) ∧
      ∀ name is_closing, ∃ rounds r, findPreviousElement name is_closing rounds p = .ok r := by
  intro h
  obtain ⟨⟨q, hq⟩, -⟩ := h (bytes "\n<a><b></b></a>") 2
    [⟨bytes "a", [], [], false, false, 0⟩, ⟨bytes "b", [], [], false, false, 0⟩]
    ⟨⟨bytes "b", [], [], false, false, 0⟩, none, bytes "\n<a><b></b></a>", 7⟩ (Nat.le_refl 2) (by decide)
  have hrun : calls getPreviousElement 2 ⟨⟨bytes "b", [], [], false, false, 0⟩, none, bytes "\n<a><b></b></a>", 7⟩ =
      .ok ([some ⟨bytes "a", [], [], false, false, 0⟩, some ⟨bytes "a", [], [], true, false, 0⟩],
        ⟨⟨bytes "a", [], [], true, false, 0⟩, none, bytes "\n<a><b></b></a>", 15⟩) := by decide
  have hlists := (Prod.mk.inj (Except.ok.inj (hrun.symm.trans hq))).1
  revert hlists
  decide

end Stretch

end XML

end Srl
