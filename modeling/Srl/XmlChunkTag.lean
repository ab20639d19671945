import Srl.XmlChunks

namespace Srl

namespace XML

open Bytes

namespace Parser

variable {p : Parser} {cs : List Bytes} {pre post : Bytes}

/-- The text of a tag in a document without boundaries, behind the part in `name`. -/
def tagText (name raw rest : Bytes) : Bytes := if name = [] ∧ raw = [] then rest else name ++ raw

/-- One of two different texts goes on where the other ends. -/
def Extends (s t : Bytes) : Prop := s ≠ [] ∧ t ≠ [] ∧ ∃ u, u ≠ [] ∧ (t = s ++ u ∨ s = t ++ u)

/-- The exception for a tag that does not end in the document. -/
def noEnd (name : Bytes) : Stop :=
  if name.length > 124 then .InvalidXML "tag name exceeds allowed length: '%s'" name
  else .InvalidXML "can not find end to tag: '%s'" name

theorem tagWhole_of_mem {name b : Bytes} (hb : 62 ∈ b) :
    TagWhole name (b :: cs) ↔ b.head? ≠ some 62 ∨ name = [] ∧ cs = [] := by
  rw [TagWhole, if_pos hb]

theorem tagWhole_of_not_mem {name b : Bytes} (hb : 62 ∉ b) :
    TagWhole name (b :: cs) ↔ cs = [] ∨ (name ++ b).length ≤ 124 ∧ TagWhole (name ++ b) cs := by
  rw [TagWhole, if_neg hb]

theorem flatten_ne_nil (h : cs ≠ []) (hcs : ∀ c ∈ cs, c ≠ []) : cs.flatten ≠ [] := by
  obtain ⟨c, cs, rfl⟩ := List.exists_cons_of_ne_nil h
  intro he
  exact hcs c List.mem_cons_self (List.append_eq_nil_iff.mp (List.flatten_cons ▸ he)).1

theorem tagText_here {name raw b : Bytes} (hb : b = raw ++ 62 :: post) (hraw : 62 ∉ raw)
    (hcs : ∀ c ∈ cs, c ≠ []) :
    (TagWhole name (b :: cs) →
        (name ++ if raw = [] then b else raw) = tagText name raw (b ++ cs.flatten)) ∧
      (¬TagWhole name (b :: cs) →
        Extends (name ++ if raw = [] then b else raw) (tagText name raw (b ++ cs.flatten))) := by
  have hmem : 62 ∈ b := by simp [hb]
  rw [tagWhole_of_mem hmem]
  unfold tagText
  by_cases hr : raw = []
  · have hhead : b.head? = some 62 := by rw [hb, hr]; rfl
    have hne : b ≠ [] := List.ne_nil_of_mem hmem
    rw [if_pos hr]
    by_cases hn : name = []
    · rw [if_pos ⟨hn, hr⟩, hn, List.nil_append]
      refine ⟨fun h => ?_, fun h => ?_⟩
      · obtain ⟨-, rfl⟩ := h.resolve_left fun hne => hne hhead
        simp
      · have : cs ≠ [] := fun he => h (.inr ⟨rfl, he⟩)
        exact ⟨hne, by simp [hne], _, flatten_ne_nil this hcs, .inl rfl⟩
    · rw [if_neg fun h => hn h.1, hr, List.append_nil]
      refine ⟨fun h => ?_, fun _ => ⟨by simp [hne], hn, b, hne, .inr rfl⟩⟩
      exact absurd (h.resolve_left fun hne => hne hhead).1 hn
  · have hhead : b.head? ≠ some 62 := by
      obtain ⟨c, raw, rfl⟩ := List.exists_cons_of_ne_nil hr
      rw [hb]
      simpa using fun he : c = 62 => hraw (he ▸ List.mem_cons_self)
    rw [if_neg hr, if_neg fun h => hr h.2]
    exact ⟨fun _ => rfl, fun h => absurd (.inl hhead) h⟩

/-- What `closeTag` makes of a tag that ends in the document. -/
def Closes (n : Nat) (p : Parser) (raw post : Bytes) : Prop :=
  (∃ a, closeTag n p = .error (.InvalidXML "tag name exceeds allowed length: '%s'" a) ∧
      ¬TagWhole p.element.name p.chunks) ∨
    ∃ p' name, closeTag n p = .ok p' ∧ p'.element = { p.element with name := name } ∧ Reaches p p' post ∧
      (∀ c ∈ name, c ∈ p.element.name ∨ c ∈ p.rest) ∧
      (TagWhole p.element.name p.chunks → name = tagText p.element.name raw p.rest) ∧
      (¬TagWhole p.element.name p.chunks → Extends name (tagText p.element.name raw p.rest))

theorem closes_here {raw post' : Bytes} (hp : Fed p) (hb : p.xml.drop p.pos = raw ++ 62 :: post')
    (hraw : 62 ∉ raw) (n : Nat) : Closes (n + 1) p raw (post' ++ (p.xml_file.getD []).flatten) := by
  have hdrop := drop_succ_of_drop hb
  have hmem : 62 ∈ p.xml.drop p.pos := by simp [hb]
  let name := p.element.name ++ if raw = [] then p.xml.drop p.pos else raw
  let p' : Parser := { p with element := { p.element with name := name }, pos := p.pos + raw.length + 1 }
  have hmoved : Fed p' := hp.moved rfl fun c hc => by
    rw [hb]
    rw [hdrop] at hc
    exact List.mem_append_right _ (List.mem_cons_of_mem _ hc)
  refine .inr ⟨p', name, ?_, rfl, ⟨hmoved, rest_of_drop hdrop rfl, ne_nil_of_drop hb, List.suffix_refl _⟩, ?_, ?_, ?_⟩
  · rw [closeTag, find_of_mem hp (by decide) hb hraw]
    dsimp only
    rw [Nat.add_sub_cancel_left, substr_eq_or hb (by simp) hp.plain_drop]
  · intro c hc
    refine (List.mem_append.mp hc).imp_right fun hm => ?_
    rw [rest_eq]
    refine List.mem_append_left _ ?_
    split at hm
    next => exact hm
    next =>
      rw [hb]
      exact List.mem_append_left _ hm
  · rw [rest_eq]
    exact (tagText_here hb hraw hp.pieces).1
  · rw [rest_eq]
    exact (tagText_here hb hraw hp.pieces).2

theorem tagText_append (name b raw rest : Bytes) :
    tagText (name ++ b) raw rest = tagText name (b ++ raw) (b ++ rest) := by
  unfold tagText
  by_cases h : (name ++ b = [] ∧ raw = [])
  · obtain ⟨hnb, rfl⟩ := h
    obtain ⟨rfl, rfl⟩ := List.append_eq_nil_iff.mp hnb
    simp
  · have h' : ¬(name = [] ∧ b ++ raw = []) := by
      rintro ⟨rfl, hbr⟩
      obtain ⟨rfl, rfl⟩ := List.append_eq_nil_iff.mp hbr
      exact h ⟨rfl, rfl⟩
    rw [if_neg h, if_neg h', List.append_assoc]

/-- The parser behind a boundary inside a tag. -/
def cutAt (p : Parser) (c : Bytes) (cs : List Bytes) : Parser :=
  { p with element := { p.element with name := p.element.name ++ p.xml.drop p.pos } }.next c cs

theorem closeTag_next {c : Bytes} (hp : Fed p) (hcs : p.xml_file.getD [] = c :: cs)
    (hb : 62 ∉ p.xml.drop p.pos) (n : Nat) :
    closeTag (n + 1) p =
      if (p.element.name ++ p.xml.drop p.pos).length > 124 then
        .error (.InvalidXML "tag name exceeds allowed length: '%s'" (p.element.name ++ p.xml.drop p.pos))
      else closeTag n (p.cutAt c cs) := by
  have hc := hp.pieces c (by rw [hcs]; exact List.mem_cons_self)
  have hq : getXML { p with element := { p.element with name := p.element.name ++ p.xml.drop p.pos } } =
      (true, p.cutAt c cs) := getXML_cons hcs hc
  simp only [closeTag, find_of_not_mem (by decide : (62 : UInt8) ≠ 0) hb, substrFrom_eq hp.plain_drop]
  split
  next => rfl
  next => rw [hq]

theorem Fed.cutAt {c : Bytes} (hp : Fed p) (hcs : p.xml_file.getD [] = c :: cs) : Fed (p.cutAt c cs) :=
  ⟨(hp.next hcs).pieces, (hp.next hcs).plain⟩

theorem closeTag_found {raw : Bytes} (hp : Fed p) (hcs : p.xml_file.getD [] = cs)
    (h : p.rest = raw ++ 62 :: post) (hraw : 62 ∉ raw) : Closes p.pieces p raw post := by
  rw [pieces_eq hcs]
  induction cs generalizing p raw with
  | nil =>
    obtain ⟨-, pre', -, hnil⟩ | ⟨post', hb, rfl⟩ := first_of_append (by rw [← rest_eq, h]) hraw
    · rw [hcs] at hnil
      simp at hnil
    · exact closes_here hp hb hraw 0
  | cons c cs ih =>
    obtain ⟨hb, raw', rfl, hr⟩ | ⟨post', hb, rfl⟩ := first_of_append (by rw [← rest_eq, h]) hraw
    · have hrest : (p.cutAt c cs).rest = raw' ++ 62 :: post := by
        rw [← hr, hcs]
        rfl
      have hclose := ih (hp.cutAt hcs) rfl hrest fun hm => hraw (List.mem_append_right _ hm)
      unfold Closes
      rw [chunks_eq hcs, List.length_cons, closeTag_next hp hcs hb, tagWhole_of_not_mem hb, rest_eq, hcs]
      split
      next hlong =>
        refine .inl ⟨_, rfl, fun hwhole => ?_⟩
        rcases hwhole with hnil | ⟨hle, -⟩
        · cases hnil
        · omega
      next hshort =>
        have hwhole : ((c :: cs = []) ∨ (p.element.name ++ p.xml.drop p.pos).length ≤ 124 ∧
            TagWhole (p.element.name ++ p.xml.drop p.pos) (c :: cs)) ↔
              TagWhole (p.cutAt c cs).element.name (p.cutAt c cs).chunks :=
          ⟨fun h => (h.resolve_left (List.cons_ne_nil c cs)).2, fun h => .inr ⟨by omega, h⟩⟩
        rw [hwhole, ← tagText_append]
        rcases hclose with herror | ⟨p', name, hp', he, hreach, hmem, hsame⟩
        · exact .inl herror
        · have hreach' : Reaches (p.next c cs) p' post :=
            ⟨hreach.fed, hreach.rest, hreach.filled, hreach.pieces⟩
          refine .inr ⟨p', name, hp', he, hreach'.of_next hcs, fun x hx => ?_, hsame⟩
          rcases hmem x hx with hm | hm
          · exact (List.mem_append.mp hm).imp_right (List.mem_append_left _)
          · exact .inr (List.mem_append_right _ hm)
    · exact closes_here hp hb hraw _

theorem closeTag_missing (hp : Fed p) (hcs : p.xml_file.getD [] = cs) (h : 62 ∉ p.rest) :
    (TagWhole p.element.name p.chunks → closeTag p.pieces p = .error (noEnd (p.element.name ++ p.rest))) ∧
      (¬TagWhole p.element.name p.chunks →
        ∃ a, closeTag p.pieces p = .error (.InvalidXML "tag name exceeds allowed length: '%s'" a) ∧
          a ≠ p.element.name ++ p.rest) := by
  rw [pieces_eq hcs]
  induction cs generalizing p with
  | nil =>
    have hb := not_mem_drop h
    rw [chunks_eq hcs, tagWhole_of_not_mem hb, rest_eq, hcs, List.flatten_nil, List.append_nil]
    refine ⟨fun _ => ?_, fun hwhole => absurd (.inl rfl) hwhole⟩
    have hq := getXML_nil (p := { p with element := { p.element with name := p.element.name ++ p.xml.drop p.pos } }) hcs
    simp only [closeTag, find_of_not_mem (by decide : (62 : UInt8) ≠ 0) hb, substrFrom_eq hp.plain_drop]
    unfold noEnd
    split
    next => rfl
    next => rw [hq]
  | cons c cs ih =>
    have hb := not_mem_drop h
    have hrest : p.element.name ++ p.rest = (p.cutAt c cs).element.name ++ (p.cutAt c cs).rest := by
      rw [rest_eq, hcs, ← List.append_assoc]
      rfl
    obtain ⟨hwhole, hcut⟩ := ih (hp.cutAt hcs) rfl (not_mem_flatten h hcs)
    rw [chunks_eq hcs, List.length_cons, closeTag_next hp hcs hb, tagWhole_of_not_mem hb, hrest]
    split
    next hlong =>
      refine ⟨fun h => ?_, fun _ => ⟨_, rfl, fun he => ?_⟩⟩
      · rcases h with hnil | ⟨hle, -⟩
        · cases hnil
        · omega
      · have hne := flatten_ne_nil (List.cons_ne_nil c cs) (hcs ▸ hp.pieces)
        exact hne (List.self_eq_append_right.mp he)
    next hshort =>
      exact ⟨fun h => hwhole (h.resolve_left (List.cons_ne_nil c cs)).2, fun h => hcut fun h' =>
        h (.inr ⟨by omega, h'⟩)⟩

end Parser

end XML

end Srl
