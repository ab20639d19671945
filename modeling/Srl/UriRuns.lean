import Srl.UriEncoding
import Srl.UriQueryMap

namespace Srl

open Bytes KeyedList Dictionary

namespace URI

inductive Call
  | getQueryMap
  | asString
  | addQueryField (key value : Bytes)

def call (u : URI) : Call → Option URI
  | .getQueryMap => u.getQueryMap
  | .asString => u.asString.map Prod.snd
  | .addQueryField key value => u.addQueryField key value

/-- The field that a call adds. -/
def Call.field : Call → Option Field
  | .addQueryField key value => some (key, encodedValue value)
  | _ => none

def added (cs : List Call) : List Field := cs.filterMap Call.field

/-- `asString` writes the query again from the map. -/
def Rebuilds (u : URI) : Prop :=
  u.query_map.size ≠ 0 ∧ UInt32.ofNat (u.query.countChar 38) + 1 ≠ u.query_map.size

instance (u : URI) : Decidable u.Rebuilds := inferInstanceAs (Decidable (_ ∧ _))

/-- A call, with the fields that were added since the query was last written again. -/
def step (s : URI × List Field) (c : Call) : Option (URI × List Field) := do
  let u ← s.1.call c
  match c with
  | .getQueryMap => some (u, s.2)
  | .asString => some (u, if s.1.Rebuilds then [] else s.2)
  | .addQueryField key value => some (u, s.2 ++ [(key, encodedValue value)])

def run (u : URI) (cs : List Call) : Option (URI × List Field) := cs.foldlM step (u, [])

/-- The text without its query. -/
def base (u : URI) : Bytes := { u with query := [] }.generateString.str

/-- The query of a text that begins with what `u` has before it. -/
def queryOf (u : URI) (str : Bytes) : Bytes := (str.drop u.base.length).drop 1

/-- The fields of a query text. -/
def fieldsOf (query : Bytes) : List Bytes := if query = [] then [] else query.splitOn 38

/-- A URI whose query holds the fields, before its query map is asked for. -/
structure Start (u : URI) (fields : List Field) : Prop where
  map : Represents u.query_map []
  settled : u.generateString = u
  path : u.path ≠ []
  fragment : u.fragment = []
  query : u.query = joined (fields.map fieldText)
  valid : ∀ f ∈ fields, Valid f

/-- What holds between two calls; `pending` are the fields that are not in the query text. -/
structure Kept (base : Bytes) (u : URI) (fields pending : List Field) : Prop where
  settled : u.generateString = u
  path : u.path ≠ []
  fragment : u.fragment = []
  base : u.base = base
  valid : ∀ f ∈ fields, Valid f
  text : ∃ shown : List Field, u.query = joined (shown.map fieldText) ∧ (shown ++ pending).Perm fields
  map : (Represents u.query_map [] ∧ pending = [] ∧ u.query = joined (fields.map fieldText) ∧
      ∀ f ∈ fields.dropLast, f.2 ≠ []) ∨ (fields ≠ [] ∧ Holds u.query_map fields)

theorem parseUser_query_map {u v : URI} {uri : Bytes} {pos spos epos spos' : Int} {is_encoded : Bool}
    (h : u.parseUser uri pos spos epos is_encoded = some (v, spos')) : v.query_map = u.query_map := by
  simp only [parseUser, Option.bind_eq_bind] at h
  split at h
  next =>
    obtain ⟨text, -, h⟩ := Option.bind_eq_some_iff.mp h
    obtain ⟨rfl, -⟩ := Prod.mk.inj (Option.some.inj h)
    rfl
  next =>
    obtain ⟨rfl, -⟩ := Prod.mk.inj (Option.some.inj h)
    rfl

theorem parsePort_query_map {u v : URI} {uri : Bytes} {spos epos part_epos : Int}
    (h : u.parsePort uri spos epos = some (v, part_epos)) : v.query_map = u.query_map := by
  simp only [parsePort, Option.bind_eq_bind] at h
  split at h
  next =>
    obtain ⟨rfl, -⟩ := Prod.mk.inj (Option.some.inj h)
    rfl
  next =>
    obtain ⟨text, -, h⟩ := Option.bind_eq_some_iff.mp h
    obtain ⟨rfl, -⟩ := Prod.mk.inj (Option.some.inj h)
    rfl

theorem parseAuthority_query_map {u v : URI} {uri : Bytes} {pos pos' : Int} {is_encoded : Bool}
    (h : u.parseAuthority uri pos is_encoded = some (v, pos')) : v.query_map = u.query_map := by
  simp only [parseAuthority, Option.bind_eq_bind] at h
  split at h
  next =>
    obtain ⟨rfl, -⟩ := Prod.mk.inj (Option.some.inj h)
    rfl
  next =>
    obtain ⟨⟨u₁, spos⟩, h₁, h⟩ := Option.bind_eq_some_iff.mp h
    obtain ⟨⟨u₂, part_epos⟩, h₂, h⟩ := Option.bind_eq_some_iff.mp h
    obtain ⟨text, -, h⟩ := Option.bind_eq_some_iff.mp h
    obtain ⟨rfl, -⟩ := Prod.mk.inj (Option.some.inj h)
    exact (parsePort_query_map h₂).trans (parseUser_query_map h₁)

theorem parseQuery_query_map {u v : URI} {uri : Bytes} {query_pos frag_pos epos : Int} {is_encoded : Bool}
    (h : u.parseQuery uri query_pos frag_pos is_encoded = some (v, epos)) : v.query_map = u.query_map := by
  simp only [parseQuery, Option.bind_eq_bind] at h
  split at h
  next =>
    obtain ⟨text, -, h⟩ := Option.bind_eq_some_iff.mp h
    obtain ⟨rfl, -⟩ := Prod.mk.inj (Option.some.inj h)
    rfl
  next =>
    split at h
    all_goals
      obtain ⟨rfl, -⟩ := Prod.mk.inj (Option.some.inj h)
      rfl

theorem parseFragment_query_map {u v : URI} {uri : Bytes} {query_pos frag_pos : Int} {is_encoded : Bool}
    (h : u.parseFragment uri query_pos frag_pos is_encoded = some v) : v.query_map = u.query_map := by
  simp only [parseFragment, Option.bind_eq_bind] at h
  split at h
  next =>
    obtain ⟨text, -, h⟩ := Option.bind_eq_some_iff.mp h
    cases Option.some.inj h
    rfl
  next =>
    cases Option.some.inj h
    rfl

theorem parsePath_query_map {u v : URI} {uri : Bytes} {pos : Int} {is_encoded : Bool}
    (h : u.parsePath uri pos is_encoded = some v) : v.query_map = u.query_map := by
  simp only [parsePath, Option.bind_eq_bind] at h
  obtain ⟨⟨u₁, epos⟩, h₁, h⟩ := Option.bind_eq_some_iff.mp h
  obtain ⟨text, -, h⟩ := Option.bind_eq_some_iff.mp h
  have hquery := parseQuery_query_map h₁
  exact (parseFragment_query_map h).trans hquery

/-- `set` leaves a text made of its parts and an empty query map. -/
theorem set_settled {u v : URI} {m : List (Bytes × Bytes)} {uri : Bytes} {is_encoded : Bool}
    (hu : Represents u.query_map m) (h : u.set uri is_encoded = some v) :
    v.generateString = v ∧ Represents v.query_map [] := by
  obtain ⟨d, hd, hrep⟩ := clear_spec hu
  simp only [set, hd, Option.bind_eq_bind, Option.bind_some] at h
  obtain ⟨⟨u₂, pos⟩, h₂, h⟩ := Option.bind_eq_some_iff.mp h
  have hscheme : ∀ w : URI, (w.parseScheme uri 0).1.query_map = w.query_map := by
    intro w
    simp only [parseScheme]
    split
    next => rfl
    next => split <;> rfl
  have hmap : u₂.query_map = d := (parseAuthority_query_map h₂).trans (hscheme _)
  split at h
  next =>
    obtain ⟨u₃, h₃, h⟩ := Option.bind_eq_some_iff.mp h
    cases Option.some.inj h
    have hmap₃ : u₃.generateString.query_map = d := (parsePath_query_map h₃).trans hmap
    exact ⟨rfl, by rwa [hmap₃]⟩
  next =>
    cases Option.some.inj h
    have hmap₂ : u₂.generateString.query_map = d := hmap
    exact ⟨rfl, by rwa [hmap₂]⟩

variable {b : Bytes} {u : URI} {fields pending : List Field}

theorem Start.kept (h : Start u fields) (hfilled : ∀ f ∈ fields.dropLast, f.2 ≠ []) :
    Kept u.base u fields [] :=
  ⟨h.settled, h.path, h.fragment, rfl, h.valid, ⟨fields, h.query, by simp⟩,
    Or.inl ⟨h.map, rfl, h.query, hfilled⟩⟩

theorem fieldText_clear {f : Field} (hf : Valid f) : Clear (fieldText f) := by
  intro c hc
  obtain hc | rfl | hc : c ∈ f.1 ∨ c = 61 ∨ c ∈ f.2 := by simpa [fieldText] using hc
  · exact hf.1.2.1 c hc
  · decide
  · exact hf.2 c hc

theorem joined_fields_eq_nil {fs : List Field} : joined (fs.map fieldText) = [] ↔ fs = [] := by
  cases fs with
  | nil => simp
  | cons f fs =>
    rw [List.map_cons]
    simp [joined_ne_nil (f := fieldText f) (by simp [fieldText])]

theorem fieldsOf_joined {fs : List Field} (hfs : ∀ f ∈ fs, Valid f) :
    fieldsOf (joined (fs.map fieldText)) = fs.map fieldText := by
  unfold fieldsOf
  split
  next h => simp [joined_fields_eq_nil.mp h]
  next h =>
    apply List.splitOn_intercalate
    · intro l hl hmem
      obtain ⟨f, hf, rfl⟩ := List.mem_map.mp hl
      exact (fieldText_clear (hfs f hf) 38 hmem).2 rfl
    · rintro he
      exact h (by rw [he, joined_nil])

theorem Kept.str (hk : Kept b u fields pending) : u.str = b ++ if u.query = [] then [] else 63 :: u.query := by
  have hstr : u.str = u.generateString.str := congrArg URI.str hk.settled.symm
  rw [hstr, ← hk.base]
  simp only [URI.base, generateString, tail, if_neg hk.path, if_pos hk.fragment, List.append_nil,
    List.append_assoc, if_true]

theorem Kept.queryOf_str (hk : Kept b u fields pending) : (u.str.drop b.length).drop 1 = u.query := by
  rw [hk.str, List.drop_left]
  split
  next h => simp [h]
  next => rfl

/-- `getQueryMap` fills the map from the text. -/
theorem Kept.getQueryMap (hk : Kept b u fields pending) (hapart : fields.Pairwise Apart)
    (hfew : fields.length < 2 ^ 32) :
    ∃ u', u.getQueryMap = some u' ∧ Kept b u' fields pending ∧ Holds u'.query_map fields := by
  obtain ⟨hrep, hpending, hquery, hfilled⟩ | ⟨hne, hholds⟩ := hk.map
  · have hsize : u.query_map.size = 0 := size_spec hrep
    by_cases hne : fields = []
    · have hlen : ¬0 < u.query.length := by simp [hquery, hne]
      refine ⟨u, ?_, hk, ?_⟩
      · rw [URI.getQueryMap, if_neg (by tauto)]
      · rw [hne]
        exact holds_nil hrep
    · have hlen : 0 < u.query.length := by
        rw [hquery]
        exact List.length_pos_of_ne_nil (by simpa [joined_fields_eq_nil] using hne)
      have hcount : u.query.countChar 38 + 1 = fields.length := by
        have hpos := List.length_pos_of_ne_nil hne
        rw [hquery, countChar_joined, List.length_map]
        · omega
        · intro t ht
          obtain ⟨f, hf, rfl⟩ := List.mem_map.mp ht
          exact fieldText_clear (hk.valid f hf)
      obtain ⟨d, hd, hholds⟩ := @parseFields_spec _ u.query _ _ 0 (holds_nil hrep)
        (fun _ => ⟨hquery, Nat.zero_le _⟩) hk.valid hfilled (by simpa using hapart)
      rw [List.nil_append] at hholds
      refine ⟨{ u with query_map := d }, ?_, ?_, hholds⟩
      · rw [URI.getQueryMap, if_pos ⟨hsize, hlen⟩, hcount, hd]
        rfl
      · refine ⟨?_, hk.path, hk.fragment, hk.base, hk.valid, hk.text, Or.inr ⟨hne, hholds⟩⟩
        have hmap : ({ u with query_map := d } : URI).generateString = { u.generateString with query_map := d } := rfl
        rw [hmap, hk.settled]
  · refine ⟨u, ?_, hk, hholds⟩
    have hsize := hholds.size_ne_zero hne hfew
    rw [URI.getQueryMap, if_neg (by tauto)]

theorem Kept.addQueryField (hk : Kept b u fields pending) (key value : Bytes) (hkey : Key key)
    (hapart : (fields ++ [(key, encodedValue value)]).Pairwise Apart) (hfew : fields.length < 2 ^ 32) :
    ∃ u', u.addQueryField key value = some u' ∧
      Kept b u' (fields ++ [(key, encodedValue value)]) (pending ++ [(key, encodedValue value)]) := by
  obtain ⟨hfields, -, hlast⟩ := List.pairwise_append.mp hapart
  obtain ⟨u₁, hu₁, hk₁, hholds⟩ := hk.getQueryMap hfields hfew
  have hvalid : Valid (key, encodedValue value) := ⟨hkey, encodedValue_clear value⟩
  obtain ⟨d, hd, hholds'⟩ := hholds.putField hvalid fun x hx => hlast x hx _ (by simp)
  refine ⟨{ u₁ with query_map := d }, ?_, ?_⟩
  · simp [URI.addQueryField, hu₁, hd]
  · obtain ⟨shown, hquery, hperm⟩ := hk₁.text
    refine ⟨?_, hk₁.path, hk₁.fragment, hk₁.base, ?_, ⟨shown, hquery, ?_⟩, Or.inr ⟨by simp, hholds'⟩⟩
    · have hmap : ({ u₁ with query_map := d } : URI).generateString =
          { u₁.generateString with query_map := d } := rfl
      rw [hmap, hk₁.settled]
    · intro f hf
      obtain hf | hf := List.mem_append.mp hf
      · exact hk.valid f hf
      · exact List.mem_singleton.mp hf ▸ hvalid
    · rw [← List.append_assoc]
      exact hperm.append_right _

/-- `asString` gives all fields if none is pending or the text is written again. -/
theorem Kept.asString (hk : Kept b u fields pending) :
    ∃ str u', u.asString = some (str, u') ∧ Kept b u' fields (if u.Rebuilds then [] else pending) ∧
      ((fieldsOf ((str.drop b.length).drop 1)).Perm (fields.map fieldText) ↔
        pending = [] ∨ u.Rebuilds) := by
  obtain ⟨shown, hquery, hperm⟩ := hk.text
  have hshown : ∀ f ∈ shown, Valid f := fun f hf =>
    hk.valid f (hperm.subset (List.mem_append_left _ hf))
  -- The old text lacks just the pending fields.
  have hold : (fieldsOf ((u.str.drop b.length).drop 1)).Perm (fields.map fieldText) ↔ pending = [] := by
    rw [hk.queryOf_str, hquery, fieldsOf_joined hshown]
    constructor
    · intro h
      have hlen := h.length_eq
      have hlen' := hperm.length_eq
      rw [List.length_map, List.length_map] at hlen
      rw [List.length_append] at hlen'
      exact List.eq_nil_of_length_eq_zero (by omega)
    · rintro rfl
      rw [List.append_nil] at hperm
      exact hperm.map _
  by_cases hsize : u.query_map.size = 0
  · have hnot : ¬u.Rebuilds := fun h => h.1 hsize
    refine ⟨u.str, u, by rw [URI.asString, if_pos hsize], ?_, ?_⟩
    · rwa [if_neg hnot]
    · rw [hold]
      tauto
  · by_cases hcount : UInt32.ofNat (u.query.countChar 38) + 1 = u.query_map.size
    · have hnot : ¬u.Rebuilds := fun h => h.2 hcount
      refine ⟨u.str, u, ?_, ?_, ?_⟩
      · rw [URI.asString, if_neg hsize, if_neg (by simpa using hcount)]
      · rwa [if_neg hnot]
      · rw [hold]
        tauto
    · have hrebuilds : u.Rebuilds := ⟨hsize, hcount⟩
      obtain ⟨hrep, -⟩ | ⟨hne, hholds⟩ := hk.map
      · exact absurd (size_spec hrep) hsize
      · have hheld := hholds
        obtain ⟨g, hrep, hg, hpairs⟩ := hheld
        have hwritten := fieldsLoop_spec hrep hg
        let u' : URI := { u with query := written g }.generateString
        have hk' : Kept b u' fields [] := by
          refine ⟨rfl, hk.path, hk.fragment, hk.base, hk.valid, ⟨pairs g, rfl, ?_⟩, Or.inr ⟨hne, hholds⟩⟩
          rwa [List.append_nil]
        refine ⟨u'.str, u', ?_, ?_, ?_⟩
        · rw [URI.asString, if_neg hsize, if_pos hcount, hwritten]
          rfl
        · rwa [if_pos hrebuilds]
        · have hvalid : ∀ f ∈ pairs g, Valid f := fun f hf => hk.valid f (hpairs.subset hf)
          have hquery' : u'.query = joined ((pairs g).map fieldText) := rfl
          rw [hk'.queryOf_str, hquery', fieldsOf_joined hvalid]
          exact iff_of_true (hpairs.map _) (Or.inr hrebuilds)

theorem Kept.step {s : URI × List Field} (hk : Kept b s.1 fields s.2) (c : Call)
    (hkeys : ∀ f ∈ c.field, Key f.1) (hapart : (fields ++ c.field.toList).Pairwise Apart)
    (hfew : fields.length < 2 ^ 32) :
    ∃ s', URI.step s c = some s' ∧ Kept b s'.1 (fields ++ c.field.toList) s'.2 := by
  cases c with
  | getQueryMap =>
    obtain ⟨u, hu, hk, -⟩ := hk.getQueryMap (by simpa [Call.field] using hapart) hfew
    refine ⟨(u, s.2), by simp [URI.step, call, hu], ?_⟩
    simpa [Call.field] using hk
  | asString =>
    obtain ⟨str, u, hu, hk, -⟩ := hk.asString
    refine ⟨(u, if s.1.Rebuilds then [] else s.2), by simp [URI.step, call, hu], ?_⟩
    simpa [Call.field] using hk
  | addQueryField key value =>
    obtain ⟨u, hu, hk⟩ := hk.addQueryField key value (hkeys (key, encodedValue value) rfl) hapart hfew
    exact ⟨(u, s.2 ++ [(key, encodedValue value)]), by simp [URI.step, call, hu], hk⟩

theorem added_cons (c : Call) (cs : List Call) : added (c :: cs) = c.field.toList ++ added cs := by
  cases h : c.field with
  | none => simp [added, h]
  | some f => simp [added, h]

theorem Kept.run {s : URI × List Field} {cs : List Call} (hk : Kept b s.1 fields s.2)
    (hkeys : ∀ f ∈ added cs, Key f.1) (hapart : (fields ++ added cs).Pairwise Apart)
    (hfew : (fields ++ added cs).length < 2 ^ 32) :
    ∃ s', cs.foldlM URI.step s = some s' ∧ Kept b s'.1 (fields ++ added cs) s'.2 := by
  induction cs generalizing s fields with
  | nil => exact ⟨s, rfl, by simpa [added] using hk⟩
  | cons c cs ih =>
    rw [added_cons] at hkeys
    rw [added_cons, ← List.append_assoc] at hapart hfew ⊢
    obtain ⟨s₁, hs₁, hk₁⟩ := hk.step c (fun f hf => hkeys f (by simp [Option.mem_toList.mpr hf]))
      (List.pairwise_append.mp hapart).1 (by simp only [List.length_append] at hfew; omega)
    obtain ⟨s', hs', hk'⟩ := ih hk₁ (fun f hf => hkeys f (by simp [hf])) hapart hfew
    refine ⟨s', ?_, hk'⟩
    rw [List.foldlM_cons, hs₁]
    exact hs'

/-- The calls give all fields if the map can keep them apart and the text is not out of date. -/
structure Apt (fields : List Field) (cs : List Call) : Prop where
  filled : ∀ f ∈ fields.dropLast, f.2 ≠ []
  apart : (fields ++ added cs).Pairwise Apart
  few : (fields ++ added cs).length < 2 ^ 32

/-- The next `asString` gives the fields of the query and those of the calls exactly when no field
is pending or the query is written again. -/
theorem fields_perm_iff (u : URI) (fields : List Field) (cs : List Call) (hu : Start u fields)
    (hkeys : ∀ f ∈ added cs, Key f.1) (hcs : Apt fields cs) :
    ∃ u' pending str u'', u.run cs = some (u', pending) ∧ u'.asString = some (str, u'') ∧
      ((fieldsOf (u.queryOf str)).Perm ((fields ++ added cs).map fieldText) ↔
        pending = [] ∨ u'.Rebuilds) := by
  obtain ⟨⟨u', pending⟩, hrun, hk⟩ := Kept.run (s := (u, [])) (hu.kept hcs.filled) hkeys hcs.apart hcs.few
  obtain ⟨str, u'', hu'', -, hiff⟩ := hk.asString
  exact ⟨u', pending, str, u'', hrun, hu'', hiff⟩

instance : DecidableRel Apart := fun f f' =>
  inferInstanceAs (Decidable (f.1.hash = f'.1.hash → f.1 = f'.1 ∧ f.2 ≠ []))
instance : DecidablePred Valid := fun f => inferInstanceAs (Decidable (Key f.1 ∧ Clear f.2))

/-- `http://h/p`, with a query of the given fields. -/
def page (fields : List Field) : URI :=
  generateString ⟨.empty, [], bytes "http", [], bytes "h", bytes "/p", joined (fields.map fieldText), [], 0⟩

theorem page_start {fields : List Field} (hfields : ∀ f ∈ fields, Valid f) : Start (page fields) fields :=
  ⟨represents_empty, rfl, by simp [page, generateString, bytes], rfl, rfl, hfields⟩

theorem fields_perm_iff_page :
    ∃ u' pending str u'',
      (page [(bytes "a", bytes "1")]).run [.addQueryField (bytes "b") (bytes "2")] = some (u', pending) ∧
      u'.asString = some (str, u'') ∧
      ((fieldsOf ((page [(bytes "a", bytes "1")]).queryOf str)).Perm
          (([(bytes "a", bytes "1")] ++ added [.addQueryField (bytes "b") (bytes "2")]).map fieldText) ↔
        pending = [] ∨ u'.Rebuilds) :=
  fields_perm_iff (page [(bytes "a", bytes "1")]) [(bytes "a", bytes "1")]
    [.addQueryField (bytes "b") (bytes "2")] (page_start (by decide)) (by decide)
    ⟨by decide, by decide, by decide⟩

/-- The first field of a URI without a query is lost. -/
theorem not_fields_perm_page : ¬∀ (u : URI) (fields : List Field) (cs : List Call), Start u fields →
    (∀ f ∈ added cs, Key f.1) →
    ∃ u' pending str u'', u.run cs = some (u', pending) ∧ u'.asString = some (str, u'') ∧
      (fieldsOf (u.queryOf str)).Perm ((fields ++ added cs).map fieldText) := by
  intro h
  obtain ⟨u', pending, str, u'', hrun, hstr, hperm⟩ :=
    h (page []) [] [.addQueryField (bytes "a") (bytes "1")] (page_start (by decide)) (by decide)
  have hvalue : ((page []).run [.addQueryField (bytes "a") (bytes "1")]).bind
      (fun s => s.1.asString.map Prod.fst) = some (bytes "http://h/p") := by decide +kernel
  rw [hrun, Option.bind_some, hstr] at hvalue
  obtain rfl : str = bytes "http://h/p" := Option.some.inj hvalue
  exact absurd hperm (by decide)

end URI

end Srl
