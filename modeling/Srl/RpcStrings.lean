import Srl.RpcBinary
import Srl.RpcNames

namespace Srl

open Bytes XML XML.Parser

/-- A reader answers `r`, with the tags `K` left and the element `e` behind it; `none` is an exception. -/
def Ends {α : Type} (x : Except RpcStop (α × Parser)) (r : Option α) (K : List Piece) (tail : Bytes)
    (e : Element) : Prop :=
  match r with
  | some a => ∃ p', x = .ok (a, p') ∧ Reads p' K tail ∧ p'.element = e
  | none => ∃ stop, x = .error stop

/-- What is read from the tags of a value behind its opening tag, whatever follows them. -/
def Yields (ps : List Piece) (r : Option RpcValue) : Prop :=
  ∀ {n : Nat} {p : Parser} {K : List Piece} {tail g : Bytes}, ps.length < n →
    p.element = (⟨g, .opening, VALUE_TAG⟩ : Piece).element → Reads p (ps ++ K) tail →
    Ends (readValue n p) r K tail closedValue

def ItemsYield (ps : List Piece) (r : Option (List RpcValue)) : Prop :=
  ∀ {n : Nat} {a : List RpcValue} {p : Parser} {t : Piece} {K : List Piece} {tail : Bytes}, ps.length < n →
    Reads p (ps ++ t :: K) tail → t.Plain → (t.form = .opening → t.name ≠ VALUE_TAG) →
    Ends (arrayLoop n a p) (r.map (a ++ ·)) K tail t.element

/-- A struct whose names are kept apart by their hashes. -/
def whenApart (m : List (Bytes × RpcValue)) : Option (List (Bytes × RpcValue)) :=
  if (m.map fun x => x.1.hash).Nodup then some m else none

def MembersYield (ps : List Piece) (r : Option (List (Bytes × RpcValue))) : Prop :=
  ∀ {n : Nat} {m : List (Bytes × RpcValue)} {p : Parser} {t : Piece} {K : List Piece} {tail : Bytes}, ps.length < n →
    (m.map fun x => x.1.hash).Nodup → Reads p (ps ++ t :: K) tail → t.Plain →
      (t.form = .opening → t.name ≠ MEMBER_TAG) →
    Ends (structLoop n m p) (r.bind fun ms => whenApart (m ++ ms)) K tail t.element

variable {ps qs : List Piece} {r : Option RpcValue} {rs : Option (List RpcValue)}
  {ms : Option (List (Bytes × RpcValue))}

theorem yields_scalar {s : Scalar} {str : Bytes} (hplain : PlainText str) (hmake : Inked str → (s.make str).isSome) :
    Yields (Doc.scalar s [] str []).body (some (if Inked str then (s.make str).getD .NULL else s.blank)) := by
  intro n p K tail g hn he h
  exact Doc.readValue_typed (.scalar s [] str []) ⟨by decide, hplain, by decide, hmake⟩ trivial hn he h

/-- The tags of a base64 value with the text `str`. -/
def binaryPieces (str : Bytes) : List Piece :=
  [⟨[], .opening, BASE64_TAG⟩, ⟨str, .closing, BASE64_TAG⟩, ⟨[], .closing, VALUE_TAG⟩]

/-- No base64 value is accepted. -/
theorem yields_binary {str : Bytes} (hplain : PlainText str) : Yields (binaryPieces str) none := by
  intro n p K tail g hn he h
  obtain ⟨n, rfl⟩ := Nat.exists_eq_succ_of_ne_zero (Nat.ne_zero_of_lt hn)
  obtain ⟨p₁, hp₁, hr₁, he₁⟩ := readValue_tag (n := n) he h (Piece.plain_of_gap (by decide) (by decide)) (by decide)
  have hread : readValue (n + 1) p = .error (.IOException
      (if Inked str then "base64 tag has no end tag" else "base64 tag has no content")) := by
    rw [hp₁, readType_base64 (by rw [he₁]; rfl), readBinary_error he₁ rfl hr₁ hplain]
    rfl
  exact ⟨_, hread⟩

theorem itemsYield_nil : ItemsYield [] (some []) := by
  intro n a p t K tail hn h ht hname
  obtain ⟨n, rfl⟩ := Nat.exists_eq_succ_of_ne_zero (Nat.ne_zero_of_lt hn)
  obtain ⟨p', hp', hr, he⟩ := arrayLoop_stop (n := n) (a := a) h ht hname
  have ha : (some []).map (a ++ ·) = some a := congrArg some (List.append_nil a)
  rw [ha]
  exact ⟨p', hp', hr, he⟩

theorem itemsYield_cons (hv : Yields ps r) (hvs : ItemsYield qs rs) :
    ItemsYield (⟨bytes "\n", .opening, VALUE_TAG⟩ :: (ps ++ qs)) (r.bind fun w => rs.map (w :: ·)) := by
  intro n a p t K tail hn h ht hname
  obtain ⟨n, rfl⟩ := Nat.exists_eq_succ_of_ne_zero (Nat.ne_zero_of_lt hn)
  simp only [List.length_cons, List.length_append] at hn
  simp only [List.cons_append, List.append_assoc] at h
  obtain ⟨p₁, hp₁, hr₁, he₁⟩ := arrayLoop_value (n := n) (a := a) h (by decide)
  have hvalue := @hv n _ _ _ _ (by omega) he₁ hr₁
  rw [hp₁]
  cases r with
  | none =>
    obtain ⟨stop, hstop⟩ := hvalue
    exact ⟨stop, by rw [hstop]; rfl⟩
  | some w =>
    obtain ⟨p₂, hp₂, hr₂, -⟩ := hvalue
    have hrest := @hvs n (a ++ [w]) _ _ _ _ (by omega) hr₂ ht hname
    rw [hp₂]
    cases rs with
    | none => exact hrest
    | some ws =>
      rw [Option.map_some, List.append_assoc] at hrest
      exact hrest

/-- The tags of a member in front of its value. -/
def slot (name : Bytes) : Slot := ⟨bytes "\n\t\t", bytes "\n\t\t\t", name, bytes "\n\t\t\t", bytes "\n\t\t"⟩

theorem slot_wellFormed {name : Bytes} (h : PlainText name) : (slot name).WellFormed :=
  ⟨(by decide : Gap (bytes "\n\t\t")), (by decide : Gap (bytes "\n\t\t\t")), h, (by decide : Gap (bytes "\n\t\t\t")),
    (by decide : Gap (bytes "\n\t\t"))⟩

theorem membersYield_nil : MembersYield [] (some []) := by
  intro n m p t K tail hn hm h ht hname
  obtain ⟨n, rfl⟩ := Nat.exists_eq_succ_of_ne_zero (Nat.ne_zero_of_lt hn)
  obtain ⟨p', hp', hr, he⟩ := structLoop_stop (n := n) (m := m) h ht hname
  have hr' : (some []).bind (fun ms => whenApart (m ++ ms)) = some m := by
    rw [Option.bind_some, List.append_nil, whenApart, if_pos hm]
  rw [hr']
  exact ⟨p', hp', hr, he⟩

/-- A name with the hash of one in front of it. -/
theorem whenApart_known {m : List (Bytes × RpcValue)} {name : Bytes} (w : RpcValue)
    (ms : Option (List (Bytes × RpcValue))) (hmem : name.hash ∈ m.map fun x => x.1.hash) :
    (ms.map ((name, w) :: ·)).bind (fun ms => whenApart (m ++ ms)) = none := by
  cases ms with
  | none => rfl
  | some ms =>
    refine if_neg fun hnodup => ?_
    rw [List.map_append, List.map_cons] at hnodup
    exact List.disjoint_of_nodup_append hnodup hmem List.mem_cons_self

theorem membersYield_cons {name : Bytes} (hplain : PlainText name) (hv : Yields ps r) (hvs : MembersYield qs ms) :
    MembersYield (header (slot name) ++ (ps ++ ⟨(slot name).endGap, .closing, MEMBER_TAG⟩ :: qs))
      (if Inked name then r.bind fun w => ms.map ((name, w) :: ·) else none) := by
  intro n m p t K tail hn hm h ht hname
  obtain ⟨n, rfl⟩ := Nat.exists_eq_succ_of_ne_zero (Nat.ne_zero_of_lt hn)
  simp only [List.length_cons, List.length_append] at hn
  simp only [List.cons_append, List.append_assoc] at h
  have hmember := structLoop_member (n := n) (m := m) h (slot_wellFormed hplain)
  rw [show (slot name).name = name from rfl] at hmember
  by_cases hinked : Inked name
  · rw [if_pos hinked] at hmember ⊢
    obtain ⟨p₁, hp₁, hr₁, he₁⟩ := hmember
    have hvalue := @hv n _ _ _ _ (by omega) he₁ hr₁
    rw [hp₁]
    cases r with
    | none =>
      obtain ⟨stop, hstop⟩ := hvalue
      exact ⟨stop, by rw [hstop]; rfl⟩
    | some w =>
      obtain ⟨p₂, hp₂, hr₂, -⟩ := hvalue
      rw [hp₂]
      by_cases hmem : name.hash ∈ m.map fun x => x.1.hash
      · have hset : RpcStructValue.set m name w = .error (.dictionary Dictionary.alreadyContains) :=
          if_pos (has_hash_iff.mpr hmem)
        rw [Option.bind_some, whenApart_known w ms hmem]
        refine ⟨.dictionary Dictionary.alreadyContains, ?_⟩
        show (RpcStructValue.set m name w >>= _) = _
        rw [hset]
        rfl
      · have hset : RpcStructValue.set m name w = .ok (m ++ [(name, w)]) := set_of_fresh w hmem
        obtain ⟨p₃, hp₃, hr₃, -⟩ := orStop_next hr₂ (Piece.plain_of_gap (slot_wellFormed hplain).endGap (by decide))
        have hm' : ((m ++ [(name, w)]).map fun x => x.1.hash).Nodup := by
          rw [List.map_append, List.map_singleton]
          exact List.Nodup.append hm (List.nodup_singleton _) (List.disjoint_singleton.mpr hmem)
        have hrest := @hvs n (m ++ [(name, w)]) _ _ _ _ (by omega) hm' hr₃ ht hname
        have hrun : (RpcStructValue.set m name w >>= fun m => orStop p₂.getNextElement >>= fun x =>
          structLoop n m x.2) =
            structLoop n (m ++ [(name, w)]) p₃ := by
          rw [hset, hp₃]
          rfl
        show Ends (RpcStructValue.set m name w >>= fun m => orStop p₂.getNextElement >>= fun x =>
          structLoop n m x.2) _ _ _ _
        rw [hrun]
        cases ms with
        | none => exact hrest
        | some ms =>
          rw [Option.bind_some, List.append_assoc] at hrest
          exact hrest
  · rw [if_neg hinked] at hmember ⊢
    exact hmember

theorem yields_array (h : ItemsYield ps rs) :
    Yields (⟨bytes "\n\t", .opening, ARRAY_TAG⟩ :: ⟨bytes "\n\t\t", .opening, DATA_TAG⟩ :: (ps ++
      [⟨bytes "\n\t\t", .closing, DATA_TAG⟩, ⟨bytes "\n\t\t", .closing, ARRAY_TAG⟩, ⟨bytes "\n", .closing, VALUE_TAG⟩]))
      (rs.map .array) := by
  intro n p K tail g hn he hreads
  obtain ⟨n, rfl⟩ := Nat.exists_eq_succ_of_ne_zero (Nat.ne_zero_of_lt hn)
  simp only [List.length_cons, List.length_append] at hn
  simp only [List.cons_append, List.append_assoc] at hreads
  obtain ⟨p₂, hp₂, hr₂⟩ := readValue_array (n := n) he hreads (by decide)
    (Piece.plain_of_gap (by decide) (by decide)) rfl
  have hdata : (⟨bytes "\n\t\t", .closing, DATA_TAG⟩ : Piece).Plain := Piece.plain_of_gap (by decide) (by decide)
  have hloop := @h n [] _ _ _ _ (by omega) hr₂ hdata (by simp)
  rw [hp₂]
  cases rs with
  | none =>
    obtain ⟨stop, hstop⟩ := hloop
    exact ⟨stop, by simp [hstop, bind, Except.bind]⟩
  | some ws =>
    obtain ⟨p₃, hp₃, hr₃, he₃⟩ := hloop
    obtain ⟨p₄, hp₄, hr₄⟩ := arrayEnd_spec he₃ hdata rfl (by simp) hr₃ (by decide)
    obtain ⟨p₅, hp₅, hr₅, he₅⟩ := finish_spec (.array ws) hr₄ (by decide)
    refine ⟨p₅, ?_, hr₅, he₅⟩
    have hread : arrayLoop n [] p₂ = .ok (ws, p₃) := hp₃
    simp [hread, hp₄, hp₅, bind, Except.bind]

theorem yields_struct (h : MembersYield ps ms) :
    Yields (⟨bytes "\n\t", .opening, STRUCT_TAG⟩ :: (ps ++
      [⟨bytes "\n\t", .closing, STRUCT_TAG⟩, ⟨bytes "\n", .closing, VALUE_TAG⟩]))
        ((ms.bind whenApart).map .struct) := by
  intro n p K tail g hn he hreads
  obtain ⟨n, rfl⟩ := Nat.exists_eq_succ_of_ne_zero (Nat.ne_zero_of_lt hn)
  simp only [List.length_cons, List.length_append] at hn
  simp only [List.cons_append, List.append_assoc] at hreads
  obtain ⟨p₁, hp₁, hr₁⟩ := readValue_struct (n := n) he hreads (by decide)
  have hloop := @h n [] _ _ _ _ (by omega) List.nodup_nil hr₁ (Piece.plain_of_gap (by decide) (by decide))
    (by simp +decide)
  have hnil : (fun ms => whenApart ([] ++ ms)) = whenApart := rfl
  rw [hnil] at hloop
  rw [hp₁]
  cases hms : ms.bind whenApart with
  | none =>
    rw [hms] at hloop
    obtain ⟨stop, hstop⟩ := hloop
    exact ⟨stop, by simp [hstop, bind, Except.bind]⟩
  | some entries =>
    rw [hms] at hloop
    obtain ⟨p₂, hp₂, hr₂, -⟩ := hloop
    obtain ⟨p₃, hp₃, hr₃, he₃⟩ := finish_spec (.struct entries) hr₂ (by decide)
    refine ⟨p₃, ?_, hr₃, he₃⟩
    simp [hp₂, hp₃, bind, Except.bind]

namespace RpcValue

/-- The value at a place, by the positions of the items and members that lead to it. -/
def part : RpcValue → List Nat → Option RpcValue
  | v, [] => some v
  | .array values, i :: path => values[i]?.bind fun v => part v path
  | .struct entries, i :: path => entries[i]?.bind fun x => part x.2 path
  | _, _ :: _ => none

/-- What stands in the way of reading: base64 values, struct names that are blank, names whose texts have one hash. -/
def Fit : RpcValue → Prop
  | .binary _ _ => False
  | .struct entries => (∀ x ∈ entries, Inked (XML.encode x.1)) ∧ (entries.map fun x => (XML.encode x.1).hash).Nodup
  | _ => True

def Readable (v : RpcValue) : Prop := ∀ path u, v.part path = some u → Fit u

/-- Strings of clean characters among values of all types, with texts that their types accept, in arrays and structs. -/
inductive Tree : RpcValue → Prop
  | text {s : Bytes} : (∀ c ∈ s, CleanChar c) → Tree (.ofString s)
  | scalar {type : RpcType} {tag : Scalar} {str : Bytes} {value : Payload} : GetTag type = some tag.tag →
      tag ≠ .string → Clean str → (tag.make str).isSome → Tree (.scalar type str value)
  | binary {str s : Bytes} : PlainText str → Tree (.binary str s)
  | array {values : List RpcValue} : (∀ v ∈ values, Tree v) → Tree (.array values)
  | struct {entries : List (Bytes × RpcValue)} : (∀ x ∈ entries, Tree x.2) → Tree (.struct entries)

/-- A text of white space comes back empty. -/
def received (s : Bytes) : Bytes := if Inked s then s else []

def Kept (v w : RpcValue) : Prop := ∀ path s, v.part path = some (.ofString s) →
    w.part path = some (.ofString (received s))

/-- The value is written as `ps`, and read from there as `r`. -/
structure Sent (v : RpcValue) (ps : List Piece) (r : Option RpcValue) : Prop where
  xml : v.asXml = some (render (⟨[], .opening, VALUE_TAG⟩ :: ps) ++ bytes "\n")
  yields : Yields ps r
  readable : r.isSome ↔ Readable v
  kept : ∀ w, r = some w → Kept v w

variable {values ws : List RpcValue} {entries es : List (Bytes × RpcValue)} {v w : RpcValue}

theorem readable_array : Readable (.array values) ↔ ∀ v ∈ values, Readable v := by
  constructor
  · intro h v hv path u hu
    obtain ⟨i, hi⟩ := List.mem_iff_getElem?.mp hv
    exact h (i :: path) u (by rw [part, hi]; exact hu)
  · intro h path u hu
    cases path with
    | nil => cases hu; trivial
    | cons i path =>
      rw [part] at hu
      obtain ⟨v, hv, hu⟩ := Option.bind_eq_some_iff.mp hu
      exact h v (List.mem_of_getElem? hv) path u hu

theorem readable_struct : Readable (.struct entries) ↔ Fit (.struct entries) ∧ ∀ x ∈ entries, Readable x.2 := by
  constructor
  · intro h
    refine ⟨h [] _ rfl, fun x hx path u hu => ?_⟩
    obtain ⟨i, hi⟩ := List.mem_iff_getElem?.mp hx
    exact h (i :: path) u (by rw [part, hi]; exact hu)
  · rintro ⟨hfit, h⟩ path u hu
    cases path with
    | nil => cases hu; exact hfit
    | cons i path =>
      rw [part] at hu
      obtain ⟨x, hx, hu⟩ := Option.bind_eq_some_iff.mp hu
      exact h x (List.mem_of_getElem? hx) path u hu

theorem kept_array (h : List.Forall₂ Kept values ws) : Kept (.array values) (.array ws) := by
  intro path s hs
  cases path with
  | nil => cases hs
  | cons i path =>
    rw [part] at hs ⊢
    obtain ⟨v, hv, hs⟩ := Option.bind_eq_some_iff.mp hs
    obtain ⟨hi, rfl⟩ := List.getElem?_eq_some_iff.mp hv
    have hi' : i < ws.length := h.length_eq ▸ hi
    rw [List.getElem?_eq_getElem hi', Option.bind_some]
    exact (List.forall₂_iff_get.mp h).2 i hi hi' path s hs

theorem kept_struct (h : List.Forall₂ (fun x y => y.1 = XML.encode x.1 ∧ Kept x.2 y.2) entries es) :
    Kept (.struct entries) (.struct es) := by
  intro path s hs
  cases path with
  | nil => cases hs
  | cons i path =>
    rw [part] at hs ⊢
    obtain ⟨x, hx, hs⟩ := Option.bind_eq_some_iff.mp hs
    obtain ⟨hi, rfl⟩ := List.getElem?_eq_some_iff.mp hx
    have hi' : i < es.length := h.length_eq ▸ hi
    rw [List.getElem?_eq_getElem hi', Option.bind_some]
    exact ((List.forall₂_iff_get.mp h).2 i hi hi').2 path s hs

/-- The items of an array, one after the other. -/
theorem sent_items (h : ∀ v ∈ values, ∃ ps r, Sent v ps r) :
    ∃ items ps rs, itemsAsXml values = some items ∧ 10 :: items = render ps ++ bytes "\n" ∧ ItemsYield ps rs ∧
      (rs.isSome ↔ ∀ v ∈ values, Readable v) ∧ ∀ ws, rs = some ws → List.Forall₂ Kept values ws := by
  induction values with
  | nil =>
    refine ⟨[], [], some [], rfl, rfl, itemsYield_nil,
      ⟨fun _ v hv => absurd hv List.not_mem_nil, fun _ => rfl⟩, fun ws hws => ?_⟩
    cases hws
    exact .nil
  | cons v values ih =>
    obtain ⟨ps, r, hv⟩ := h v List.mem_cons_self
    obtain ⟨items, qs, rs, hitems, htext, hyields, hreadable, hkept⟩ := ih fun v hv => h v (List.mem_cons_of_mem _ hv)
    refine ⟨_, _, _, by rw [itemsAsXml, hv.xml, hitems]; rfl, ?_, itemsYield_cons hv.yields hyields, ?_, ?_⟩
    · simp only [render_cons, render_append, List.append_assoc, Piece.render]
      rw [← htext]
      simp [bytes, Piece.tag]
    · rw [List.forall_mem_cons, ← hv.readable, ← hreadable]
      cases r with
      | none => simp
      | some w => simp
    · intro ws hws
      obtain ⟨w, rfl, hws⟩ := Option.bind_eq_some_iff.mp hws
      obtain ⟨ws, rfl, rfl⟩ := Option.map_eq_some_iff.mp hws
      exact .cons (hv.kept w rfl) (hkept ws rfl)

theorem sent_members (h : ∀ x ∈ entries, ∃ ps r, Sent x.2 ps r) :
    ∃ members ps ms, membersAsXml entries = some members ∧ 10 :: members = render ps ++ bytes "\n" ∧
      MembersYield ps ms ∧
      (ms.isSome ↔ (∀ x ∈ entries, Inked (XML.encode x.1)) ∧ ∀ x ∈ entries, Readable x.2) ∧
      ∀ es, ms = some es → List.Forall₂ (fun x y => y.1 = XML.encode x.1 ∧ Kept x.2 y.2) entries es := by
  induction entries with
  | nil =>
    refine ⟨[], [], some [], rfl, rfl, membersYield_nil, ?_, fun es hes => ?_⟩
    · exact ⟨fun _ => ⟨fun x hx => absurd hx List.not_mem_nil, fun x hx => absurd hx List.not_mem_nil⟩, fun _ => rfl⟩
    · cases hes
      exact .nil
  | cons x entries ih =>
    obtain ⟨name, v⟩ := x
    obtain ⟨ps, r, hv⟩ := h (name, v) List.mem_cons_self
    obtain ⟨members, qs, ms, hmembers, htext, hyields, hreadable, hkept⟩ :=
      ih fun x hx => h x (List.mem_cons_of_mem _ hx)
    have hxml : v.asXml = some (render (⟨[], .opening, VALUE_TAG⟩ :: ps) ++ bytes "\n") := hv.xml
    refine ⟨_, _, _, by rw [membersAsXml, hxml, hmembers]; rfl, ?_,
      membersYield_cons (XML.plainText_encode name) hv.yields hyields, ?_, ?_⟩
    · simp only [header, slot, render_cons, render_append, List.append_assoc, Piece.render, List.cons_append]
      rw [← htext]
      simp [bytes, Piece.tag, MEMBER_TAG, NAME_TAG, VALUE_TAG]
    · rw [List.forall_mem_cons, List.forall_mem_cons]
      have hv' := hv.readable
      by_cases hinked : Inked (XML.encode name)
      · rw [if_pos hinked]
        cases r with
        | none => exact ⟨fun h => (by cases h), fun h => (by cases hv'.mpr h.2.1)⟩
        | some w =>
          rw [Option.bind_some, Option.isSome_map, hreadable]
          exact ⟨fun h => ⟨⟨hinked, h.1⟩, hv'.mp rfl, h.2⟩, fun h => ⟨h.1.2, h.2.2⟩⟩
      · rw [if_neg hinked]
        exact ⟨fun h => (by cases h), fun h => absurd h.1.1 hinked⟩
    · intro es hes
      split at hes
      next =>
        obtain ⟨w, rfl, hes⟩ := Option.bind_eq_some_iff.mp hes
        obtain ⟨es, rfl, rfl⟩ := Option.map_eq_some_iff.mp hes
        exact .cons ⟨rfl, hv.kept w rfl⟩ (hkept es rfl)
      next => cases hes

/-- The names that are read are those that were written, as they stand in the text. -/
theorem hashes_eq (h : List.Forall₂ (fun x y => y.1 = XML.encode x.1 ∧ Kept x.2 y.2) entries es) :
    (es.map fun x => x.1.hash) = entries.map fun x => (XML.encode x.1).hash := by
  induction h with
  | nil => rfl
  | cons hxy _ ih => rw [List.map_cons, List.map_cons, ih, hxy.1]

theorem readable_leaf (hpart : ∀ i path, v.part (i :: path) = none) (hfit : Fit v) : Readable v := by
  intro path u hu
  cases path with
  | nil => cases hu; exact hfit
  | cons i path => rw [hpart] at hu; cases hu

theorem sent_text {s : Bytes} (hs : ∀ c ∈ s, CleanChar c) : ∃ ps r, Sent (.ofString s) ps r := by
  have hmake : Scalar.make .string s = some (.ofString s) := by
    rw [Scalar.make, readString, decode_cleanChars hs]
  refine ⟨_, _, ?_, yields_scalar (s := .string) (plainText_cleanChars hs) fun _ => by rw [hmake]; rfl, ?_, ?_⟩
  · exact asXml_scalar .NULL (encode_cleanChars hs) rfl
  · exact ⟨fun _ => readable_leaf (fun _ _ => rfl) trivial, fun _ => rfl⟩
  · intro w hw path t ht
    cases hw
    cases path with
    | nil =>
      cases ht
      rw [hmake, Option.getD_some, part, received]
      split
      next => rfl
      next => rfl
    | cons i path => cases ht

theorem sent_scalar {type : RpcType} {tag : Scalar} {str : Bytes} {value : Payload} (htag : GetTag type = some tag.tag)
    (hstring : tag ≠ .string) (hclean : Clean str) (hmake : (tag.make str).isSome) :
    ∃ ps r, Sent (.scalar type str value) ps r := by
  refine ⟨_, _, asXml_scalar value hclean.encode htag, yields_scalar hclean.plainText fun _ => hmake, ?_, ?_⟩
  · exact ⟨fun _ => readable_leaf (fun _ _ => rfl) trivial, fun _ => rfl⟩
  · intro w _ path t ht
    cases path with
    | nil =>
      cases ht
      have hsame : STRING_TAG = tag.tag := Option.some.inj htag
      cases tag with
      | string => exact absurd rfl hstring
      | int | i4 | double | boolean | dateTime => exact absurd hsame (by decide)
    | cons i path => cases ht

theorem sent_binary {str s : Bytes} (hplain : PlainText str) : ∃ ps r, Sent (.binary str s) ps r := by
  have hplain' : PlainText (str ++ Base64.encode s) := by
    intro c hc
    rcases List.mem_append.mp hc with hc | hc
    · exact hplain c hc
    · exact Base64.plainText_encode s c hc
  refine ⟨binaryPieces (str ++ Base64.encode s), none, ?_, yields_binary hplain', ?_, fun w hw => by cases hw⟩
  · simp [asXml, binaryPieces, Piece.render, Piece.tag, bytes, VALUE_TAG, BASE64_TAG]
  · exact ⟨fun h => (by cases h), fun h => (h [] _ rfl).elim⟩

theorem sent_array (h : ∀ v ∈ values, ∃ ps r, Sent v ps r) : ∃ ps r, Sent (.array values) ps r := by
  obtain ⟨items, ps, rs, hitems, htext, hyields, hreadable, hkept⟩ := sent_items h
  refine ⟨_, _, ?_, yields_array hyields, ?_, ?_⟩
  · have hbreak : bytes "<value>\n\t<array>\n\t\t<data>\n" ++ items =
        bytes "<value>\n\t<array>\n\t\t<data>" ++ 10 :: items := by simp [bytes]
    rw [asXml, hitems, bind_some, hbreak, htext]
    simp [render_append, Piece.render, Piece.tag, bytes, VALUE_TAG, ARRAY_TAG, DATA_TAG]
  · rw [Option.isSome_map, hreadable, readable_array]
  · intro w hw
    obtain ⟨ws, hws, rfl⟩ := Option.map_eq_some_iff.mp hw
    exact kept_array (hkept ws hws)

theorem sent_struct (h : ∀ x ∈ entries, ∃ ps r, Sent x.2 ps r) : ∃ ps r, Sent (.struct entries) ps r := by
  obtain ⟨members, ps, ms, hmembers, htext, hyields, hreadable, hkept⟩ := sent_members h
  refine ⟨_, _, ?_, yields_struct hyields, ?_, ?_⟩
  · have hbreak : bytes "<value>\n\t<struct>\n" ++ members = bytes "<value>\n\t<struct>" ++
      10 :: members := by simp [bytes]
    rw [asXml, hmembers, bind_some, hbreak, htext]
    simp [render_append, Piece.render, Piece.tag, bytes, VALUE_TAG, STRUCT_TAG]
  · rw [Option.isSome_map, readable_struct]
    cases hms : ms with
    | none =>
      rw [hms] at hreadable
      exact ⟨fun h => (by cases h), fun h => (by cases hreadable.mpr ⟨h.1.1, h.2⟩)⟩
    | some es =>
      rw [hms] at hreadable
      obtain ⟨hinked, hvalues⟩ := hreadable.mp rfl
      rw [Option.bind_some, whenApart, hashes_eq (hkept es hms)]
      split
      next hapart => exact ⟨fun _ => ⟨⟨hinked, hapart⟩, hvalues⟩, fun _ => rfl⟩
      next hapart => exact ⟨fun h => (by cases h), fun h => absurd h.1.2 hapart⟩
  · intro w hw
    obtain ⟨es, hes, rfl⟩ := Option.map_eq_some_iff.mp hw
    obtain ⟨es', rfl, hes'⟩ := Option.bind_eq_some_iff.mp hes
    have hsame : es' = es := by
      unfold whenApart at hes'
      split at hes'
      next => exact Option.some.inj hes'
      next => cases hes'
    exact kept_struct (hkept es (congrArg some hsame))

/-- Whatever is sent, its text and what is read from there are known. -/
theorem Tree.sent (h : Tree v) : ∃ ps r, Sent v ps r := by
  induction h with
  | text hs => exact sent_text hs
  | scalar htag hstring hclean hmake => exact sent_scalar htag hstring hclean hmake
  | binary hplain => exact sent_binary hplain
  | array _ ih => exact sent_array ih
  | struct _ ih => exact sent_struct ih

/-- What `FromXml` reads from the text of a value. -/
theorem Sent.fromXml {ps : List Piece} {r : Option RpcValue} (h : Sent v ps r) :
    ∃ xml p, v.asXml = some xml ∧ (Parser.ofString xml).getNextElement = .ok (true, p) ∧
      Ends (FromXml p) r [] (bytes "\n") closedValue := by
  have hstart : Reads (Parser.ofString (render (⟨[], .opening, VALUE_TAG⟩ :: ps) ++ bytes "\n"))
      (⟨[], .opening, VALUE_TAG⟩ :: ps) (bytes "\n") := ⟨rfl, rfl⟩
  obtain ⟨p, hp, hr, he⟩ := getNextElement_spec hstart (Piece.plain_of_gap (by decide) (by decide))
  refine ⟨_, p, h.xml, hp, h.yields (Nat.lt_succ_of_le hr.length_le) he ?_⟩
  rw [List.append_nil]
  exact hr

/-- The string at the place `path` is read back as it was. -/
def StringSurvives (v : RpcValue) (path : List Nat) (s : Bytes) : Prop :=
  ∃ xml p w p', v.asXml = some xml ∧ (Parser.ofString xml).getNextElement = .ok (true, p) ∧ FromXml p = .ok (w, p') ∧
    w.part path = some (.ofString s)

theorem received_eq_iff {s : Bytes} : received s = s ↔ s = [] ∨ Inked s := by
  unfold received
  split
  next hinked => exact ⟨fun _ => .inr hinked, fun _ => rfl⟩
  next hinked => exact ⟨fun h => .inl h.symm, fun h => h.elim Eq.symm fun h => absurd h hinked⟩

theorem stringSurvives_received (h : Tree v) {path : List Nat} {s : Bytes} (hs : v.part path = some (.ofString s)) :
    StringSurvives v path s ↔ received s = s ∧ Readable v := by
  obtain ⟨ps, r, hsent⟩ := h.sent
  obtain ⟨xml, p, hxml, hp, hends⟩ := hsent.fromXml
  rw [← hsent.readable]
  constructor
  · rintro ⟨xml', p₁, w, p₂, hxml', hp₁, hrun, hw⟩
    cases hxml.symm.trans hxml'
    cases hp.symm.trans hp₁
    cases r with
    | none =>
      obtain ⟨stop, hstop⟩ := hends
      rw [hstop] at hrun
      cases hrun
    | some w' =>
      obtain ⟨p', hp', -, -⟩ := hends
      cases hp'.symm.trans hrun
      have hkept := (hsent.kept w rfl path s hs).symm.trans hw
      exact ⟨(RpcValue.scalar.inj (Option.some.inj hkept)).2.1, rfl⟩
  · rintro ⟨hsame, hsome⟩
    obtain ⟨w, rfl⟩ := Option.isSome_iff_exists.mp hsome
    obtain ⟨p', hp', -, -⟩ := hends
    exact ⟨xml, p, w, p', hxml, hp, hp', hsame ▸ hsent.kept w rfl path s hs⟩

/-- A string survives, wherever it stands, just if it is empty or more than white space; and if the value can be read at
all. -/
theorem stringSurvives_iff (h : Tree v) {path : List Nat} {s : Bytes} (hs : v.part path = some (.ofString s)) :
    StringSurvives v path s ↔ (s = [] ∨ Inked s) ∧ Readable v := by
  rw [stringSurvives_received h hs, received_eq_iff]

theorem stringSurvives_iff_item : StringSurvives (.array [.ofInt 7, .ofString (bytes " a b")]) [1] (bytes " a b") := by
  have htree : Tree (.array [.ofInt 7, .ofString (bytes " a b")]) := by
    refine .array fun v hv => ?_
    simp only [List.mem_cons, List.not_mem_nil, or_false] at hv
    rcases hv with rfl | rfl
    · exact @Tree.scalar .TypeInt .int _ _ rfl (by decide) (Clean.val 7) rfl
    · exact .text (by decide)
  have hreadable : Readable (.array [.ofInt 7, .ofString (bytes " a b")]) := by
    refine readable_array.mpr fun v hv => ?_
    simp only [List.mem_cons, List.not_mem_nil, or_false] at hv
    rcases hv with rfl | rfl
    · exact readable_leaf (fun _ _ => rfl) trivial
    · exact readable_leaf (fun _ _ => rfl) trivial
  exact (stringSurvives_iff htree rfl).mpr ⟨.inr (by decide), hreadable⟩

/-- A blank comes back as the empty string. -/
theorem not_stringSurvives : ¬∀ (v : RpcValue) (path : List Nat) (s : Bytes), Tree v → Readable v →
    v.part path = some (.ofString s) → StringSurvives v path s := by
  intro h
  have htree : Tree (.ofString (bytes " ")) := .text (by decide)
  have hreadable : Readable (.ofString (bytes " ")) := readable_leaf (fun _ _ => rfl) trivial
  have hsame := ((stringSurvives_received htree rfl).mp (h _ [] _ htree hreadable rfl)).1
  exact absurd hsame (by decide)

end RpcValue

end Srl
