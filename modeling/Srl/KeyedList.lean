import Mathlib.Data.Finmap

namespace KeyedList

variable {K V ι : Type} [DecidableEq ι]

/-- Association lists in insertion order, searched by a digest of the key. -/
def has (hash : K → ι) (m : List (K × V)) (h : ι) : Bool := m.any fun p => hash p.1 = h

def lookup (hash : K → ι) (m : List (K × V)) (h : ι) : Option V :=
  (m.find? fun p => hash p.1 = h).map Prod.snd

def erase (hash : K → ι) (m : List (K × V)) (h : ι) : List (K × V) := m.filter fun p => hash p.1 ≠ h

/-- Replaces the value of the binding with the digest of `k`, which keeps its key. -/
def assign (hash : K → ι) (m : List (K × V)) (k : K) (v : V) : List (K × V) :=
  if has hash m (hash k) then m.map fun p => if hash p.1 = hash k then (p.1, v) else p
  else m ++ [(k, v)]

def Distinct (hash : K → ι) (m : List (K × V)) : Prop := m.Pairwise fun p q => hash p.1 ≠ hash q.1

variable {hash : K → ι} {m xs ys : List (K × V)} {h h' : ι} {k k' : K} {v v' : V}

theorem has_iff : has hash m h ↔ ∃ p ∈ m, hash p.1 = h := by simp [has]

theorem not_has_iff : has hash m h = false ↔ ∀ p ∈ m, hash p.1 ≠ h := by simp [has]

theorem lookup_isSome : (lookup hash m h).isSome = has hash m h := by
  rw [Bool.eq_iff_iff]
  simp [lookup, has]

theorem lookup_eq_none_iff : lookup hash m h = none ↔ has hash m h = false := by
  rw [← lookup_isSome, Option.isSome_eq_false_iff, Option.isNone_iff_eq_none]

theorem lookup_cons (p : K × V) :
    lookup hash (p :: m) h = if hash p.1 = h then some p.2 else lookup hash m h := by
  by_cases hp : hash p.1 = h <;> simp [lookup, hp]

theorem lookup_append :
    lookup hash (xs ++ ys) h = (lookup hash xs h).or (lookup hash ys h) := by
  simp [lookup, List.find?_append, Option.map_or]

theorem lookup_snoc_self (hm : has hash m (hash k) = false) :
    lookup hash (m ++ [(k, v)]) (hash k) = some v := by
  simp [lookup_append, lookup_eq_none_iff.mpr hm, lookup_cons]

theorem lookup_snoc_ne (hh : h ≠ hash k) : lookup hash (m ++ [(k, v)]) h = lookup hash m h := by
  have : lookup hash [(k, v)] h = none := by simp [Ne.symm hh, lookup]
  simp [lookup_append, this]

theorem lookup_erase_self : lookup hash (erase hash m h) h = none := by
  rw [lookup_eq_none_iff, not_has_iff]
  intro p hp
  simpa using (List.mem_filter.mp hp).2

theorem lookup_erase_ne (hh : h' ≠ h) : lookup hash (erase hash m h) h' = lookup hash m h' := by
  induction m with
  | nil => rfl
  | cons p m ih =>
    by_cases hp : hash p.1 = h
    · have : hash p.1 ≠ h' := by rintro rfl; exact hh hp
      rw [lookup_cons, if_neg this, ← ih]
      simp [erase, hp]
    · rw [lookup_cons, ← ih]
      have : erase hash (p :: m) h = p :: erase hash m h := by simp [erase, hp]
      rw [this, lookup_cons]

theorem erase_of_not_has (hm : has hash m h = false) : erase hash m h = m :=
  List.filter_eq_self.mpr fun p hp => by simpa using not_has_iff.mp hm p hp

theorem lookup_assign_self : lookup hash (assign hash m k v) (hash k) = some v := by
  unfold assign
  split
  next hm =>
    induction m with
    | nil => simp [has] at hm
    | cons p m ih =>
      rw [List.map_cons, lookup_cons]
      by_cases hp : hash p.1 = hash k
      · simp [hp]
      · have hm' : has hash m (hash k) = true := by simpa [has, hp] using hm
        simpa [hp] using ih hm'
  next hm => exact lookup_snoc_self (by simpa using hm)

theorem lookup_assign_ne (hh : h ≠ hash k) : lookup hash (assign hash m k v) h = lookup hash m h := by
  unfold assign
  split
  next hm =>
    clear hm
    induction m with
    | nil => rfl
    | cons p m ih =>
      rw [List.map_cons, lookup_cons, lookup_cons, ih]
      by_cases hp : hash p.1 = hash k
      · have : hash p.1 ≠ h := by rintro rfl; exact hh hp
        simp [hp, Ne.symm hh]
      · simp [hp]
  next => exact lookup_snoc_ne hh

theorem has_assign : has hash (assign hash m k v) (hash k) = true := by
  rw [← lookup_isSome, lookup_assign_self]
  rfl

theorem assign_assign (hm : has hash m (hash k) = true) :
    assign hash (assign hash m k v) k v' = assign hash m k v' := by
  rw [assign, if_pos has_assign, assign, if_pos hm, assign, if_pos hm, List.map_map]
  apply List.map_congr_left
  intro p _
  by_cases hp : hash p.1 = hash k
  · simp [hp]
  · simp [hp]

theorem lookup_of_mem (hd : Distinct hash m) (hm : (k, v) ∈ m) : lookup hash m (hash k) = some v := by
  induction m with
  | nil => simp at hm
  | cons p m ih =>
    obtain ⟨hp, hd⟩ := List.pairwise_cons.mp hd
    rw [lookup_cons]
    rcases List.mem_cons.mp hm with rfl | hm
    · simp
    · rw [if_neg (hp _ hm), ih hd hm]

/-- The binding that stands under a digest. -/
def entry (hash : K → ι) (m : List (K × V)) (h : ι) : Option (K × V) := m.find? fun p => hash p.1 = h

theorem entry_eq_none_iff : entry hash m h = none ↔ has hash m h = false := by
  simp [entry, has]

theorem entry_some {p : K × V} (hp : entry hash m h = some p) : p ∈ m ∧ hash p.1 = h :=
  ⟨List.mem_of_find?_eq_some hp, by simpa using List.find?_some hp⟩

theorem entry_of_mem {p : K × V} (hd : Distinct hash m) (hp : p ∈ m) : entry hash m (hash p.1) = some p := by
  induction m with
  | nil => cases hp
  | cons q m ih =>
    obtain ⟨hq, hd⟩ := List.pairwise_cons.mp hd
    rcases List.mem_cons.mp hp with rfl | hp
    · rw [entry, List.find?_cons_of_pos (by simp)]
    · rw [entry, List.find?_cons_of_neg (by simpa using hq p hp)]
      exact ih hd hp

theorem entry_snoc (hm : has hash m (hash k) = false) :
    entry hash (m ++ [(k, v)]) h = if hash k = h then some (k, v) else entry hash m h := by
  rw [entry, List.find?_append]
  split
  next hh =>
    subst hh
    have hnone : m.find? (fun p => hash p.1 = hash k) = none := entry_eq_none_iff.mpr hm
    rw [hnone, List.find?_cons_of_pos (by simp)]
    rfl
  next hh => rw [List.find?_cons_of_neg (by simpa using hh), List.find?_nil, Option.or_none, entry]

/-- An assignment keeps the key of a binding that is there. -/
theorem entry_assign : entry hash (assign hash m k v) h =
    if hash k = h then some (((entry hash m h).map Prod.fst).getD k, v) else entry hash m h := by
  unfold assign
  split
  next hm =>
    have hmap : entry hash (m.map fun p => if hash p.1 = hash k then (p.1, v) else p) h =
        (entry hash m h).map fun p => if hash p.1 = hash k then (p.1, v) else p := by
      rw [entry, entry, List.find?_map]
      congr 2
      funext p
      by_cases hp : hash p.1 = hash k <;> simp [hp]
    rw [hmap]
    cases hq : entry hash m h with
    | none =>
      rw [if_neg]
      · rfl
      · rintro rfl
        rw [entry_eq_none_iff.mp hq] at hm
        cases hm
    | some q =>
      have hhash := (entry_some hq).2
      rw [Option.map_some, hhash]
      by_cases hk : hash k = h
      · rw [if_pos hk.symm, if_pos hk]
        rfl
      · rw [if_neg fun he => hk he.symm, if_neg hk]
  next hm =>
    have hnone : has hash m (hash k) = false := by simpa using hm
    rw [entry_snoc hnone]
    split
    next hh =>
      subst hh
      rw [entry_eq_none_iff.mpr hnone]
      rfl
    next => rfl

theorem assign_eq_self {p : K × V} (hd : Distinct hash m) (hp : p ∈ m) (hk : hash k = hash p.1) :
    assign hash m k p.2 = m := by
  rw [assign, hk, if_pos (has_iff.mpr ⟨p, hp, rfl⟩)]
  refine (List.map_congr_left fun q hq => ?_).trans (List.map_id m)
  split
  next hh =>
    have hsame := entry_of_mem hd hq
    rw [hh, entry_of_mem hd hp] at hsame
    rw [Option.some.inj hsame]
    rfl
  next => rfl

/-- Puts a further value behind those of the key. -/
def push (hash : K → ι) (g : List (K × List V)) (k : K) (v : V) : List (K × List V) :=
  if has hash g (hash k) then g.map fun p => if hash p.1 = hash k then (p.1, p.2 ++ [v]) else p
  else g ++ [(k, [v])]

/-- Every value with its key. -/
def pairs (g : List (K × List V)) : List (K × V) := g.flatMap fun p => p.2.map (Prod.mk p.1)

section Push

variable {g : List (K × List V)} {p : K × List V}

theorem mem_pairs {q : K × V} : q ∈ pairs g ↔ ∃ p ∈ g, p.1 = q.1 ∧ q.2 ∈ p.2 := by
  obtain ⟨k, v⟩ := q
  simp only [pairs, List.mem_flatMap, List.mem_map, Prod.mk.injEq]
  constructor
  · rintro ⟨p, hp, w, hw, rfl, rfl⟩
    exact ⟨p, hp, rfl, hw⟩
  · rintro ⟨p, hp, rfl, hv⟩
    exact ⟨p, hp, v, hv, rfl, rfl⟩

theorem pairs_cons (p : K × List V) (g : List (K × List V)) :
    pairs (p :: g) = p.2.map (Prod.mk p.1) ++ pairs g := List.flatMap_cons

/-- The bindings after a push are old ones, the grown one or the new one. -/
theorem mem_push (hp : p ∈ push hash g k v) :
    p ∈ g ∨ (∃ q ∈ g, hash q.1 = hash k ∧ p = (q.1, q.2 ++ [v])) ∨ p = (k, [v]) := by
  unfold push at hp
  split at hp
  next =>
    obtain ⟨q, hq, rfl⟩ := List.mem_map.mp hp
    split
    next hk => exact Or.inr (Or.inl ⟨q, hq, hk, rfl⟩)
    next => exact Or.inl hq
  next =>
    obtain hp | hp := List.mem_append.mp hp
    · exact Or.inl hp
    · exact Or.inr (Or.inr (List.mem_singleton.mp hp))

theorem map_grow_of_ne {l : List (K × List V)} (h : ∀ p ∈ l, hash p.1 ≠ hash k) :
    (l.map fun p => if hash p.1 = hash k then (p.1, p.2 ++ [v]) else p) = l := by
  have hmap : (l.map fun p => if hash p.1 = hash k then (p.1, p.2 ++ [v]) else p) = l.map id :=
    List.map_congr_left fun p hp => if_neg (h p hp)
  rw [hmap, List.map_id]

/-- A push adds one pair, if the digest tells the key from the others. -/
theorem pairs_push (hd : Distinct hash g) (hk : ∀ p ∈ g, hash p.1 = hash k → p.1 = k) :
    (pairs (push hash g k v)).Perm (pairs g ++ [(k, v)]) := by
  unfold push
  split
  next hh =>
    obtain ⟨p, hp, hpk⟩ := has_iff.mp hh
    obtain ⟨xs, ys, rfl⟩ := List.append_of_mem hp
    obtain ⟨-, hys, hxs⟩ := List.pairwise_append.mp hd
    have hxs : ∀ q ∈ xs, hash q.1 ≠ hash k := fun q hq => hpk ▸ hxs q hq p (by simp)
    have hys : ∀ q ∈ ys, hash q.1 ≠ hash k := fun q hq => hpk ▸ ((List.pairwise_cons.mp hys).1 q hq).symm
    rw [List.map_append, List.map_cons, map_grow_of_ne hxs, map_grow_of_ne hys, if_pos hpk, hk p hp hpk]
    simp only [pairs, List.flatMap_append, List.flatMap_cons, List.map_append, List.map_cons, List.map_nil,
      List.append_assoc, hk p hp hpk]
    exact (List.Perm.append_left _ (List.Perm.append_left _ List.perm_append_comm))
  next => simp [pairs]

end Push

section Finite

variable [DecidableEq K] {f : Finmap fun _ : K => V}

/-- The list stands for the finite map `f`. -/
def Denotes (hash : K → ι) (m : List (K × V)) (f : Finmap fun _ : K => V) : Prop :=
  ∀ k, f.lookup k = lookup hash m (hash k)

theorem denotes_nil : Denotes hash ([] : List (K × V)) ∅ := fun k => by simp [lookup]

theorem Denotes.mem (hf : Denotes hash m f) : k ∈ f ↔ has hash m (hash k) = true := by
  rw [← lookup_isSome, ← hf k, Finmap.lookup_isSome]

theorem Denotes.snoc (hf : Denotes hash m f) (inj : Function.Injective hash)
    (hm : has hash m (hash k) = false) : Denotes hash (m ++ [(k, v)]) (f.insert k v) := by
  intro k'
  by_cases hk : k' = k
  · rw [hk, Finmap.lookup_insert, lookup_snoc_self hm]
  · rw [Finmap.lookup_insert_of_ne f hk, lookup_snoc_ne (fun h => hk (inj h)), hf]

theorem Denotes.assign (hf : Denotes hash m f) (inj : Function.Injective hash) :
    Denotes hash (assign hash m k v) (f.insert k v) := by
  intro k'
  by_cases hk : k' = k
  · rw [hk, Finmap.lookup_insert, lookup_assign_self]
  · rw [Finmap.lookup_insert_of_ne f hk, lookup_assign_ne (fun h => hk (inj h)), hf]

theorem Denotes.erase (hf : Denotes hash m f) (inj : Function.Injective hash) :
    Denotes hash (erase hash m (hash k)) (f.erase k) := by
  intro k'
  by_cases hk : k' = k
  · rw [hk, Finmap.lookup_erase, lookup_erase_self]
  · rw [Finmap.lookup_erase_ne hk, lookup_erase_ne (fun h => hk (inj h)), hf]

theorem Denotes.card (hf : Denotes hash m f) (inj : Function.Injective hash) (hd : Distinct hash m) :
    f.keys.card = m.length := by
  have hkeys : f.keys = (m.map Prod.fst).toFinset := by
    ext k
    rw [Finmap.mem_keys, hf.mem, has_iff, List.mem_toFinset, List.mem_map]
    exact exists_congr fun p => and_congr_right fun _ => inj.eq_iff
  have hnodup : (m.map Prod.fst).Nodup :=
    List.pairwise_map.mpr (hd.imp fun hne heq => hne (congrArg hash heq))
  rw [hkeys, List.toFinset_card_of_nodup hnodup, List.length_map]

end Finite

end KeyedList
