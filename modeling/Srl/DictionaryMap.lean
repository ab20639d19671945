import Srl.DictionaryContents

namespace Srl

open SearchTree LinkedList

variable {Key Value : Type} {d : Dictionary Key Value} {t : BinTree Color} {order : List Ptr}
  {m : List (Key × Value)}

namespace Dictionary

theorem clearLoop_spec {p : Ptr} {fuel : Nat} (hs : Segment d.links p order NULL) (hn : order.Nodup)
    (hz : ∀ a ∈ order, a ≠ NULL) (hfuel : order.length < fuel) :
    ∃ d', clearLoop fuel d (order.head?.getD NULL) = some d' ∧ d'.brk = d.brk ∧
      (∀ a ∈ order, d'.heap a = none) ∧ ∀ a, a ∉ order → d'.heap a = d.heap a := by
  induction order generalizing d p fuel with
  | nil =>
    obtain ⟨fuel, rfl⟩ := Nat.exists_eq_add_of_lt hfuel
    exact ⟨d, by simp [clearLoop], rfl, by simp, fun _ _ => rfl⟩
  | cons a order ih =>
    obtain ⟨fuel, rfl⟩ := Nat.exists_eq_add_of_lt hfuel
    obtain ⟨ha, hs⟩ := hs
    obtain ⟨han, hn⟩ := List.nodup_cons.mp hn
    obtain ⟨e, he, -, hnext⟩ := entry_of_links ha
    let d₁ : Dictionary Key Value := { d with heap := Function.update d.heap a none }
    have hother : ∀ b, b ≠ a → d₁.heap b = d.heap b := fun b hb => by simp [d₁, Function.update_of_ne hb]
    have hs₁ : Segment d₁.links a order NULL :=
      hs.congr fun b hb => by rw [links, links, hother b (by rintro rfl; exact han hb)]
    obtain ⟨d', hd, hbrk, hdead, hlive⟩ := ih hs₁ hn (fun b hb => hz b (by simp [hb]))
      (show order.length < order.length + 1 + fuel by omega)
    refine ⟨d', ?_, hbrk, ?_, ?_⟩
    · simpa [clearLoop, hz a (by simp), he, delete, hnext, Nat.add_assoc] using hd
    · intro b hb
      rcases List.mem_cons.mp hb with rfl | hb
      · rw [hlive b han]
        simp [d₁]
      · exact hdead b hb
    · intro b hb
      simp only [List.mem_cons, not_or] at hb
      rw [hlive b hb.2, hother b hb.1]

theorem containsValueLoop_spec [DecidableEq Value] {p : Ptr} {fuel : Nat} (v : Value)
    (hs : Segment d.links p order NULL) (hz : ∀ a ∈ order, a ≠ NULL) (hfuel : order.length < fuel) :
    d.containsValueLoop v fuel (order.head?.getD NULL) = some ((d.contents order).any (·.2 = v)) := by
  induction order generalizing p fuel with
  | nil =>
    obtain ⟨fuel, rfl⟩ := Nat.exists_eq_add_of_lt hfuel
    simp [containsValueLoop]
  | cons a order ih =>
    obtain ⟨fuel, rfl⟩ := Nat.exists_eq_add_of_lt hfuel
    obtain ⟨ha, hs⟩ := hs
    obtain ⟨e, he, -, hnext⟩ := entry_of_links ha
    have hrec := ih hs (fun b hb => hz b (by simp [hb]))
      (show order.length < order.length + 1 + fuel by omega)
    by_cases hv : e.value = v
    · simp [containsValueLoop, hz a (by simp), he, hv, contents_cons he]
    · simp [containsValueLoop, hz a (by simp), he, hnext, hv, contents_cons he, hrec]

variable [Hasher Key]

theorem represents_empty : Represents (empty : Dictionary Key Value) [] :=
  ⟨.nil, [], ⟨⟨trivial, trivial, rfl, by simp⟩, by simp [Ordered], .refl _,
    ⟨trivial, rfl, rfl, by simp, by simp⟩, by simp [empty], by simp, Nat.one_pos, rfl,
    by simp [empty]⟩, rfl⟩

/-- `clear` frees every entry and leaves an empty dictionary. -/
theorem clear_spec (hd : Represents d m) : ∃ d', d.clear = some d' ∧ Represents d' [] := by
  obtain ⟨t, order, hS, rfl⟩ := hd
  obtain ⟨d', hrun, hbrk, hdead, hlive⟩ :=
    clearLoop_spec hS.linked.segment hS.nodup hS.linked.live hS.length_lt
  rw [← hS.linked.first] at hrun
  have hnone : ∀ a, d'.heap a = none := by
    intro a
    by_cases ha : a ∈ order
    · exact hdead a ha
    · rw [hlive a ha]
      by_contra hne
      exact ha (hS.live a (Option.isSome_iff_ne_none.mpr hne))
  refine ⟨{ d' with size := 0, root := NULL, first := NULL, last := NULL }, by simp [clear, hrun], .nil, [],
    ⟨⟨trivial, trivial, rfl, by simp⟩, by simp [Ordered], .refl _, ⟨trivial, rfl, rfl, by simp, by simp⟩,
      by simp [hnone], by simp, hbrk ▸ hS.brk, rfl, by simp [hnone]⟩, rfl⟩

theorem containsValue_spec [DecidableEq Value] (hd : Represents d m) (v : Value) :
    d.containsValue v = some (m.any (·.2 = v)) := by
  obtain ⟨t, order, hS, rfl⟩ := hd
  rw [containsValue, hS.linked.first]
  exact containsValueLoop_spec v hS.linked.segment hS.linked.live hS.length_lt

theorem Shape.length_contents (hS : Shape d t order) : (d.contents order).length = order.length := by
  rw [contents, List.length_filterMap_eq_countP]
  refine List.countP_eq_length.mpr fun a ha => ?_
  obtain ⟨e, he⟩ := hS.entry ha
  simp [he]

theorem size_spec (hd : Represents d m) : d.size = UInt32.ofNat m.length := by
  obtain ⟨t, order, hS, rfl⟩ := hd
  rw [hS.size, hS.length_contents]

theorem Represents.distinct (hd : Represents d m) : KeyedList.Distinct Hasher.hash m := by
  obtain ⟨t, order, hS, rfl⟩ := hd
  exact hS.distinct

/-- `find` gives an iterator to the binding with the hash of the key. -/
theorem find_spec (hd : Represents d m) (key : Key) :
    ∃ q, d.find key = some q ∧
      ((q = NULL ∧ KeyedList.lookup Hasher.hash m (Hasher.hash key) = none) ∨
        (q ≠ NULL ∧ ∃ e, d.heap q = some e ∧ e.hash = Hasher.hash key ∧
          Hasher.hash e.key = Hasher.hash key ∧
          KeyedList.lookup Hasher.hash m (Hasher.hash key) = some e.value)) := by
  obtain ⟨t, order, hS, rfl⟩ := hd
  obtain ⟨q, hq, hcase⟩ := hS.find key
  refine ⟨q, hq, ?_⟩
  rcases hcase with ⟨hz, hno⟩ | ⟨hz, hm, e, he, hh⟩
  · exact Or.inl ⟨hz, KeyedList.lookup_eq_none_iff.mpr hno⟩
  · have hk : Hasher.hash e.key = Hasher.hash key := by rw [← hS.hashed q e he, hh]
    refine Or.inr ⟨hz, e, he, hh, hk, ?_⟩
    rw [← hk]
    exact KeyedList.lookup_of_mem hS.distinct (mem_contents.mpr ⟨q, hm, e, he, rfl⟩)

/-- A live entry is the binding with its hash. -/
theorem entry_spec {q : Ptr} {e : Entry Key Value} (hd : Represents d m) (he : d.heap q = some e) :
    Hasher.hash e.key = e.hash ∧ KeyedList.lookup Hasher.hash m e.hash = some e.value := by
  obtain ⟨t, order, hS, rfl⟩ := hd
  have hk := hS.hashed q e he
  refine ⟨hk.symm, ?_⟩
  rw [hk]
  exact KeyedList.lookup_of_mem hS.distinct (mem_contents.mpr ⟨q, hS.live q (by simp [he]), e, he, rfl⟩)

theorem hasKey_spec (hd : Represents d m) (key : Key) :
    d.hasKey key = some (KeyedList.has Hasher.hash m (Hasher.hash key)) := by
  obtain ⟨q, hq, hcase⟩ := find_spec hd key
  rw [find] at hq
  rcases hcase with ⟨hz, hno⟩ | ⟨hz, e, he, _, _, hl⟩
  · simp [hasKey, hq, hz, ← KeyedList.lookup_isSome, hno]
  · simp [hasKey, hq, hz, ← KeyedList.lookup_isSome, hl]

theorem get_spec (hd : Represents d m) (key : Key) :
    d.get key = some (answer (KeyedList.lookup Hasher.hash m (Hasher.hash key))) := by
  obtain ⟨q, hq, hcase⟩ := find_spec hd key
  rw [find] at hq
  rcases hcase with ⟨hz, hno⟩ | ⟨hz, e, he, _, _, hl⟩
  · simp [get, hq, hz, hno, answer]
  · simp [get, hq, hz, he, hl, answer]

theorem remove_spec (hd : Represents d m) (key : Key) :
    if KeyedList.has Hasher.hash m (Hasher.hash key) then
      ∃ d', d.remove key = some (.ok d') ∧ Represents d' (KeyedList.erase Hasher.hash m (Hasher.hash key))
    else d.remove key = some (.error doesNotExist) := by
  obtain ⟨q, hq, hcase⟩ := find_spec hd key
  rw [find] at hq
  rcases hcase with ⟨hz, hno⟩ | ⟨hz, e, he, hh, _, hl⟩
  · simp [remove, hq, hz, ← KeyedList.lookup_isSome, hno]
  · obtain ⟨t, order, hS, rfl⟩ := hd
    obtain ⟨d', t', order', hd', hS', hc⟩ := hS.drop he
    rw [← KeyedList.lookup_isSome, hl, Option.isSome_some, if_pos rfl, ← hh]
    exact ⟨d', by simp [remove, hq, hz, hd'], t', order', hS', hc.symm⟩

/-- An iterator to a live entry removes the binding it points to. -/
theorem removeIterator_spec {iter : Ptr} {e : Entry Key Value} (hd : Represents d m)
    (he : d.heap iter = some e) :
    (e.key, e.value) ∈ m ∧ ∃ d', d.removeIterator iter = some (.ok (e.next, d')) ∧
      Represents d' (KeyedList.erase Hasher.hash m (Hasher.hash e.key)) := by
  obtain ⟨t, order, hS, rfl⟩ := hd
  refine ⟨mem_contents.mpr ⟨iter, hS.live iter (by simp [he]), e, he, rfl⟩, ?_⟩
  have hh := hS.hashed iter e he
  obtain ⟨q, hq, hcase⟩ := hS.find e.key
  rcases hcase with ⟨hz, hno⟩ | ⟨hz, hm, n, hn, hnh⟩
  · have := hS.has he
    rw [hh, hno] at this
    exact absurd this (by decide)
  · obtain rfl : q = iter := hS.unique hn he (hnh.trans hh.symm)
    obtain ⟨d', t', order', hd', hS', hc⟩ := hS.drop he
    exact ⟨d', by simp [removeIterator, he, hq, hz, hd'], t', order', hS', by rw [hc, hh]⟩

variable [Inhabited Value]

theorem add_spec (hd : Represents d m) (key : Key) (value : Value) :
    if KeyedList.has Hasher.hash m (Hasher.hash key) then d.add key value = some (.error alreadyContains)
    else ∃ d', d.add key value = some (.ok d') ∧ Represents d' (m ++ [(key, value)]) := by
  have hkey := hasKey_spec hd key
  split
  next hh =>
    rw [hh] at hkey
    simp [add, hkey]
  next hh =>
    rw [Bool.not_eq_true] at hh
    obtain ⟨t, order, hS, rfl⟩ := hd
    let e : Entry Key Value := ⟨NULL, NULL, NULL, NULL, NULL, .red, key, value, Hasher.hash key⟩
    obtain ⟨d₁, d₂, t', hd₁, hd₂, hS', hc, -⟩ := hS.enter (e := e) hh rfl rfl rfl
    refine ⟨d₂, ?_, t', _, hS', hc.symm⟩
    rw [hh] at hkey
    simp only [e] at hd₁
    simp [add, hkey, newEntry, store, hd₁, hd₂]

theorem index_spec (hd : Represents d m) (key : Key) :
    ∃ q d' e, d.index key = some (q, d') ∧ d'.heap q = some e ∧ e.hash = Hasher.hash key ∧
      if KeyedList.has Hasher.hash m (Hasher.hash key) then d' = d
      else Represents d' (m ++ [(key, default)]) := by
  obtain ⟨q, hq, hcase⟩ := find_spec hd key
  rw [find] at hq
  rcases hcase with ⟨hz, hno⟩ | ⟨hz, e, he, hh, _, hl⟩
  · obtain ⟨t, order, hS, rfl⟩ := hd
    have hno : KeyedList.has Hasher.hash (d.contents order) (Hasher.hash key) = false :=
      KeyedList.lookup_eq_none_iff.mp hno
    let e : Entry Key Value := ⟨NULL, NULL, NULL, NULL, NULL, .red, key, default, Hasher.hash key⟩
    obtain ⟨d₁, d₂, t', hd₁, hd₂, hS', hc, n, hn, hk, _⟩ := hS.enter (e := e) hno rfl rfl rfl
    refine ⟨d.brk, d₂, n, ?_, hn, ?_, ?_⟩
    · simp only [e] at hd₁
      simp [index, hq, hz, newEntry, hd₁, hd₂]
    · rw [hS'.hashed d.brk n hn, hk]
    · rw [hno]
      exact ⟨t', _, hS', hc.symm⟩
  · refine ⟨q, d, e, by simp [index, hq, hz], he, hh, ?_⟩
    rw [← KeyedList.lookup_isSome, hl]
    simp

theorem assign_spec (hd : Represents d m) (key : Key) (value : Value) :
    ∃ d', d.assign key value = some d' ∧ Represents d' (KeyedList.assign Hasher.hash m key value) := by
  obtain ⟨q, d₁, e, hd₁, he, hh, hcase⟩ := index_spec hd key
  have hno : KeyedList.has Hasher.hash m (Hasher.hash key) = false →
      ∀ p ∈ m, Hasher.hash p.1 ≠ Hasher.hash key := KeyedList.not_has_iff.mp
  rw [KeyedList.assign]
  split at hcase
  next hm =>
    subst hcase
    obtain ⟨t, order, hS, rfl⟩ := hd
    obtain ⟨d', hd', hS', hc⟩ := hS.storeValue he value
    exact ⟨d', by simp [assign, hd₁, hd'], t, order, hS', by rw [if_pos hm, hc, hh]⟩
  next hm =>
    obtain ⟨t, order, hS, hmc⟩ := hcase
    obtain ⟨d', hd', hS', hc⟩ := hS.storeValue he value
    refine ⟨d', by simp [assign, hd₁, hd'], t, order, hS', ?_⟩
    rw [if_neg hm, hc, ← hmc, hh, List.map_append, List.map_singleton, if_pos rfl]
    congr 1
    refine (List.map_congr_left fun p hp => ?_).trans (List.map_id m) |>.symm
    rw [if_neg (hno (by simpa using hm) p hp), id]

/-- A reference to a value that is there serves to change it. -/
theorem modify_spec {v : Value} (hd : Represents d m) (key : Key) (f : Value → Value)
    (hv : KeyedList.lookup Hasher.hash m (Hasher.hash key) = some v) :
    ∃ q d', d.index key = some (q, d) ∧ (d.store q fun e => { e with value := f e.value }) = some d' ∧
      Represents d' (KeyedList.assign Hasher.hash m key (f v)) := by
  obtain ⟨q, d₁, e, hd₁, he, hh, hcase⟩ := index_spec hd key
  have hm : KeyedList.has Hasher.hash m (Hasher.hash key) = true := by
    rw [← KeyedList.lookup_isSome, hv]
    rfl
  rw [if_pos hm] at hcase
  subst hcase
  obtain rfl : e.value = v := by
    have hlookup := (entry_spec hd he).2
    rw [hh, hv] at hlookup
    exact (Option.some.inj hlookup).symm
  obtain ⟨t, order, hS, rfl⟩ := hd
  obtain ⟨d', hd', hS', hc⟩ := hS.storeValue he (f e.value)
  rw [store_eq _ he] at hd'
  refine ⟨q, d', hd₁, (store_eq _ he).trans hd', t, order, hS', ?_⟩
  rw [KeyedList.assign, if_pos hm, hc, hh]

end Dictionary

end Srl
