import Srl.UriFields

namespace Srl

open Bytes KeyedList Dictionary

namespace URI

/-- The map that holds the values of every key. -/
def texts (g : List (Bytes × List Bytes)) : List (Bytes × Bytes) := g.map fun p => (p.1, joined p.2)

/-- Keys with values that the text of an entry tells apart. -/
def Groups (g : List (Bytes × List Bytes)) : Prop := ∀ p ∈ g, Key p.1 ∧ Values p.2 ∧ p.2 ≠ []

variable {d : Dictionary Bytes Bytes} {m : List (Bytes × Bytes)} {g : List (Bytes × List Bytes)}

theorem distinct_texts (h : Distinct Hasher.hash (texts g)) : Distinct (Hasher.hash : Bytes → Int) g := by
  have hg := List.pairwise_map.mp h
  exact hg

theorem has_texts (h : Int) : has Hasher.hash (texts g) h = has Hasher.hash g h := by
  simp only [has, texts, List.any_map]
  rfl

theorem append_spec {key value old : Bytes} (hd : Represents d m)
    (hold : lookup Hasher.hash m (Hasher.hash key) = some old) :
    ∃ d', append d key value = some d' ∧
      Represents d' (KeyedList.assign Hasher.hash m key (old ++ 38 :: value)) := by
  have hm : has Hasher.hash m (Hasher.hash key) = true := by
    rw [← lookup_isSome, hold]
    rfl
  obtain ⟨q₁, d₁, hi₁, hs₁, hd₁⟩ := modify_spec hd key (· ++ [38]) hold
  obtain ⟨q₂, d₂, hi₂, hs₂, hd₂⟩ := modify_spec hd₁ key (· ++ value) lookup_assign_self
  refine ⟨d₂, ?_, ?_⟩
  · unfold append
    simp only [hi₁, hs₁, hi₂, hs₂, Option.bind_eq_bind, Option.bind_some]
  · rwa [assign_assign hm, List.append_assoc, List.singleton_append] at hd₂

/-- A value of a field goes behind those of its key. -/
theorem putField_spec {key value : Bytes} (hd : Represents d (texts g)) (hg : Groups g) :
    ∃ d', putField d key value = some d' ∧ Represents d' (texts (push Hasher.hash g key value)) := by
  have hkey := hasKey_spec hd key
  have hdistinct := hd.distinct
  rw [has_texts] at hkey
  unfold putField push
  by_cases hk : has Hasher.hash g (Hasher.hash key) = true
  · obtain ⟨p, hp, hpk⟩ := has_iff.mp hk
    have hlookup : lookup Hasher.hash (texts g) (Hasher.hash key) = some (joined p.2) := by
      rw [← hpk]
      exact lookup_of_mem hdistinct (List.mem_map.mpr ⟨p, hp, rfl⟩)
    obtain ⟨d', hd', hrep⟩ := @append_spec _ _ _ value _ hd hlookup
    refine ⟨d', ?_, ?_⟩
    · simp [hkey, hk, hd']
    · rw [KeyedList.assign, if_pos (by rwa [has_texts])] at hrep
      rw [if_pos hk]
      simp only [texts, List.map_map] at hrep ⊢
      convert hrep using 1
      apply List.map_congr_left
      intro x hx
      by_cases hxk : (Hasher.hash x.1 : Int) = Hasher.hash key
      · have hsame : joined x.2 = joined p.2 := by
          have := lookup_of_mem hdistinct (List.mem_map.mpr ⟨x, hx, rfl⟩)
          rw [hxk, hlookup] at this
          exact (Option.some.inj this).symm
        simp [hxk, joined_append (hg x hx).2.2, hsame]
      · simp [hxk]
  · rw [Bool.not_eq_true] at hk
    obtain ⟨d', hd', hrep⟩ := assign_spec hd key value
    refine ⟨d', ?_, ?_⟩
    · simp [hkey, hk, hd']
    · rw [KeyedList.assign, if_neg (by rw [has_texts, hk]; decide)] at hrep
      rw [if_neg (by rw [hk]; decide)]
      simpa [texts] using hrep

theorem Groups.push {key value : Bytes} (hg : Groups g) (hk : Key key) (hv : Clear value)
    (hlast : ∀ p ∈ g, (Hasher.hash p.1 : Int) = Hasher.hash key → [] ∉ p.2) :
    Groups (push Hasher.hash g key value) := by
  intro p hp
  obtain hp | ⟨q, hq, hqk, rfl⟩ | rfl := mem_push hp
  · exact hg p hp
  · obtain ⟨hkey, hvalues, _⟩ := hg q hq
    refine ⟨hkey, ⟨?_, ?_⟩, by simp⟩
    · intro f hf
      obtain hf | hf := List.mem_append.mp hf
      · exact hvalues.clear f hf
      · exact List.mem_singleton.mp hf ▸ hv
    · intro f hf
      rw [List.dropLast_concat] at hf
      rintro rfl
      exact hlast q hq hqk hf
  · exact ⟨hk, ⟨by simpa using hv, by simp⟩, by simp⟩

/-- The fields of the map in its order. -/
def written (g : List (Bytes × List Bytes)) : Bytes := joined ((pairs g).map fieldText)

theorem written_cons {p : Bytes × List Bytes} (hp : p.2 ≠ []) (hg : Groups g) :
    written (p :: g) = joined (p.2.map fun v => fieldText (p.1, v)) ++
      g.flatMap fun q => 38 :: joined (q.2.map fun v => fieldText (q.1, v)) := by
  induction g generalizing p with
  | nil =>
    rw [written, pairs, List.flatMap_singleton, List.map_map, List.flatMap_nil, List.append_nil]
    rfl
  | cons q g ih =>
    have hq := hg q (by simp)
    have hrest := ih hq.2.2 fun x hx => hg x (by simp [hx])
    have hne : (pairs (q :: g)).map fieldText ≠ [] := by
      simp [pairs, hq.2.2]
    rw [written, pairs_cons, List.map_append, List.map_map, joined_append (by simpa using hp) hne]
    rw [written] at hrest
    rw [hrest, List.flatMap_cons, List.cons_append]
    rfl

theorem fieldsLoop_rest {p : Ptr} {order : List Ptr} {fuel : Nat}
    (hs : LinkedList.Segment d.links p order NULL) (hz : ∀ a ∈ order, a ≠ NULL ∧ a ≠ d.begin)
    (hfuel : order.length < fuel) (hg : Groups g) (hc : d.contents order = texts g) (query : Bytes) :
    fieldsLoop d fuel (order.head?.getD NULL) query =
      some (query ++ g.flatMap fun q => 38 :: joined (q.2.map fun v => fieldText (q.1, v))) := by
  induction order generalizing p fuel g query with
  | nil =>
    obtain ⟨fuel, rfl⟩ := Nat.exists_eq_add_of_lt hfuel
    obtain rfl : g = [] := List.map_eq_nil_iff.mp hc.symm
    simp [fieldsLoop]
  | cons a order ih =>
    obtain ⟨fuel, rfl⟩ := Nat.exists_eq_add_of_lt hfuel
    obtain ⟨ha, hs⟩ := hs
    obtain ⟨e, he, -, hnext⟩ := entry_of_links ha
    rw [contents_cons he] at hc
    obtain ⟨q, g, rfl, hq, hc⟩ := List.map_eq_cons_iff.mp hc.symm
    obtain ⟨hk, hv⟩ := Prod.mk.inj hq
    have hvalues := (hg q (by simp)).2
    have hrec := ih hs (fun b hb => hz b (by simp [hb]))
      (show order.length < order.length + 1 + fuel by omega) (fun x hx => hg x (by simp [hx])) hc.symm
      (addField e.key e.value (query ++ [38]))
    have hround : addField e.key e.value (query ++ [38]) =
        query ++ 38 :: joined (q.2.map fun v => fieldText (q.1, v)) := by
      rw [← hk, ← hv, addField_joined hvalues.1 hvalues.2, List.append_assoc, List.singleton_append]
    rw [hround] at hrec
    simpa [fieldsLoop, hz a (by simp), he, hnext, hround, Nat.add_assoc] using hrec

/-- The loop of `asString` writes the fields of the map. -/
theorem fieldsLoop_spec (hd : Represents d (texts g)) (hg : Groups g) :
    fieldsLoop d d.brk d.begin [] = some (written g) := by
  obtain ⟨t, order, hS, hc⟩ := hd
  have hfuel := hS.length_lt
  have hs := hS.linked.segment
  have hfirst : d.begin = order.head?.getD NULL := hS.linked.first
  have hnodup := hS.nodup
  have hlive := hS.linked.live
  generalize d.brk = fuel at hfuel
  obtain ⟨fuel, rfl⟩ := Nat.exists_eq_add_of_lt hfuel
  cases order with
  | nil =>
    obtain rfl : g = [] := List.map_eq_nil_iff.mp hc
    rw [hfirst]
    simp [fieldsLoop, written, pairs]
  | cons a order =>
    obtain ⟨ha, hs⟩ := hs
    obtain ⟨e, he, -, hnext⟩ := entry_of_links ha
    rw [contents_cons he] at hc
    obtain ⟨q, g, rfl, hq, hc⟩ := List.map_eq_cons_iff.mp hc
    obtain ⟨hk, hv⟩ := Prod.mk.inj hq
    have hvalues := (hg q (by simp)).2
    have hbegin : d.begin = a := hfirst
    have hrest := fieldsLoop_rest hs
      (fun b hb => ⟨hlive b (by simp [hb]), fun h => (List.nodup_cons.mp hnodup).1 (hbegin ▸ h ▸ hb)⟩)
      (show order.length < order.length + 1 + fuel by omega) (fun x hx => hg x (by simp [hx])) hc.symm
      (addField e.key e.value [])
    have hround : addField e.key e.value [] = joined (q.2.map fun v => fieldText (q.1, v)) := by
      rw [← hk, ← hv, addField_joined hvalues.1 hvalues.2, List.nil_append]
    rw [hround] at hrest
    rw [hbegin, written_cons hvalues.2 fun x hx => hg x (by simp [hx])]
    simpa [fieldsLoop, hlive a (by simp), hbegin, he, hnext, hround, Nat.add_assoc] using hrest

/-- The map tells the second field from the first one and keeps both. -/
def Apart (f f' : Field) : Prop := f.1.hash = f'.1.hash → f.1 = f'.1 ∧ f.2 ≠ []

/-- A field that can stand in a query. -/
def Valid (f : Field) : Prop := Key f.1 ∧ Clear f.2

/-- The map holds the fields. -/
def Holds (d : Dictionary Bytes Bytes) (fields : List Field) : Prop :=
  ∃ g, Represents d (texts g) ∧ Groups g ∧ (pairs g).Perm fields

theorem holds_nil (hd : Represents d []) : Holds d [] := ⟨[], hd, by simp [Groups], .refl _⟩

theorem Holds.putField {fields : List Field} {f : Field} (hd : Holds d fields) (hf : Valid f)
    (hapart : ∀ x ∈ fields, Apart x f) :
    ∃ d', URI.putField d f.1 f.2 = some d' ∧ Holds d' (fields ++ [f]) := by
  obtain ⟨g, hrep, hg, hperm⟩ := hd
  obtain ⟨d', hd', hrep'⟩ := @putField_spec _ _ f.1 f.2 hrep hg
  have hpair : ∀ p ∈ g, (Hasher.hash p.1 : Int) = Hasher.hash f.1 → ∀ v ∈ p.2, p.1 = f.1 ∧ v ≠ [] := by
    intro p hp hh v hv
    have hmem : (p.1, v) ∈ fields := hperm.mem_iff.mp (mem_pairs.mpr ⟨p, hp, rfl, hv⟩)
    exact hapart _ hmem (hash_eq_iff.mp hh)
  refine ⟨d', hd', push Hasher.hash g f.1 f.2, hrep', ?_, ?_⟩
  · apply hg.push hf.1 hf.2
    intro p hp hh hnil
    exact (hpair p hp hh [] hnil).2 rfl
  · refine (pairs_push (distinct_texts hrep.distinct) ?_).trans (hperm.append_right _)
    intro p hp hh
    obtain ⟨v, hv⟩ := List.exists_mem_of_ne_nil _ (hg p hp).2.2
    exact (hpair p hp hh v hv).1

theorem joined_fieldText (f : Field) (rest : List Bytes) :
    joined (fieldText f :: rest) = f.1 ++ 61 :: joined (f.2 :: rest) := by
  by_cases h : rest = []
  · simp [h, fieldText]
  · rw [joined_cons _ h, joined_cons _ h, fieldText, List.append_assoc, List.cons_append]

/-- The loop of `getQueryMap` puts the fields that are left into the map. -/
theorem parseFields_spec {query : Bytes} {fs fields : List Field} {pos : Nat} (hd : Holds d fields)
    (hs : fs ≠ [] → query.drop pos = joined (fs.map fieldText) ∧ pos ≤ query.length)
    (hfs : ∀ f ∈ fs, Valid f) (hfilled : ∀ f ∈ fs.dropLast, f.2 ≠ [])
    (hapart : (fields ++ fs).Pairwise Apart) :
    ∃ d', parseFields query fs.length pos d = some d' ∧ Holds d' (fields ++ fs) := by
  induction fs generalizing d fields pos with
  | nil => exact ⟨d, rfl, by simpa using hd⟩
  | cons f fs ih =>
    obtain ⟨hs, hpos⟩ := hs (by simp)
    obtain ⟨hkey, hvalue⟩ := hfs f (by simp)
    rw [List.map_cons, joined_fieldText] at hs
    have hfind : query.find 61 pos = some (pos + f.1.length) := by
      apply find_eq hs (by decide)
      intro c hc
      exact ⟨fun he => hkey.2.2 (he ▸ hc), (hkey.2.1 c hc).1⟩
    have hfield : between query pos ((pos + f.1.length : Nat) : Int) = some f.1 :=
      between_eq hs hkey.1 rfl (by omega)
    have hrest : query.drop (pos + f.1.length + 1) = joined (f.2 :: fs.map fieldText) := by
      rw [Nat.add_assoc, ← List.drop_drop, hs, ← List.drop_drop, List.drop_left]
      rfl
    have hpos' : pos + f.1.length + 1 ≤ query.length := by
      have := (find_bounds (by decide) hfind).2
      omega
    have hlen := length_of_drop hrest hpos'
    have hnil : f.2 = [] → fs.map fieldText = [] := by
      intro he
      obtain _ | ⟨x, xs⟩ := fs
      · rfl
      · exact absurd he (hfilled f (by rw [List.dropLast_cons_cons]; simp))
    have hmid := mid_joined hrest hpos' hnil
    have hstop : (query.find 38 (pos + f.1.length + 1)).getD query.length = pos + f.1.length + 1 + f.2.length := by
      rw [find_joined hrest hvalue]
      split
      next h =>
        rw [if_pos h] at hlen
        exact hlen
      next => rfl
    have htext : between query ((pos + f.1.length + 1 : Nat) : Int)
        ((pos + f.1.length + 1 + f.2.length : Nat) : Int) = some f.2 := by
      rw [between, if_pos (by omega), Int.toNat_natCast, Int.toNat_natCast, Nat.add_sub_cancel_left, substr, hmid]
    have happend : fields ++ f :: fs = fields ++ [f] ++ fs := by simp
    rw [happend] at hapart ⊢
    have hbefore : ∀ x ∈ fields, Apart x f := fun x hx =>
      (List.pairwise_append.mp (List.pairwise_append.mp hapart).1).2.2 x hx f (by simp)
    obtain ⟨d₁, hd₁, hheld⟩ := hd.putField ⟨hkey, hvalue⟩ hbefore
    have hnext : fs ≠ [] → query.drop (pos + f.1.length + 1 + f.2.length + 1) = joined (fs.map fieldText) ∧
        pos + f.1.length + 1 + f.2.length + 1 ≤ query.length := by
      intro hne
      have hne' : fs.map fieldText ≠ [] := by simpa using hne
      rw [if_neg hne'] at hlen
      exact ⟨drop_rest hrest hne', hlen⟩
    obtain ⟨d', hd', hheld'⟩ := ih hheld hnext (fun x hx => hfs x (by simp [hx])) (by
      intro x hx
      obtain _ | ⟨y, ys⟩ := fs
      · simp at hx
      · exact hfilled x (by rw [List.dropLast_cons_cons]; simp [hx])) hapart
    refine ⟨d', ?_, hheld'⟩
    rw [List.length_cons, parseFields]
    simp only [hfind, hfield, hstop, htext, hd₁, hd', Option.bind_eq_bind, Option.bind_some]

/-- A map with fewer than 2³² fields, but some, does not look empty. -/
theorem Holds.size_ne_zero {fields : List Field} (hd : Holds d fields) (hne : fields ≠ [])
    (hfew : fields.length < 2 ^ 32) : d.size ≠ 0 := by
  obtain ⟨g, hrep, hg, hperm⟩ := hd
  have hpos : 0 < g.length := by
    apply List.length_pos_of_ne_nil
    rintro rfl
    exact hne (List.Perm.nil_eq hperm).symm
  have hle : ∀ g : List (Bytes × List Bytes), Groups g → g.length ≤ (pairs g).length := by
    intro g hg
    induction g with
    | nil => simp
    | cons p g ih =>
      have hp := List.length_pos_of_ne_nil (hg p (by simp)).2.2
      have ih := ih fun q hq => hg q (by simp [hq])
      rw [pairs_cons, List.length_append, List.length_map, List.length_cons]
      omega
  have hlen := hle g hg
  rw [hperm.length_eq] at hlen
  rw [size_spec hrep, texts, List.length_map]
  intro hz
  have hmod : g.length % 2 ^ 32 = 0 := by
    have := congrArg UInt32.toNat hz
    simpa using this
  rw [Nat.mod_eq_of_lt (by omega)] at hmod
  omega

end URI

end Srl
