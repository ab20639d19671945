import Srl.DictionaryMap

namespace Srl

open SearchTree LinkedList

variable {Key Value : Type} [Hasher Key] {d : Dictionary Key Value} {t : BinTree Color} {xs ys : List Ptr} {a : Ptr}

namespace Dictionary

/-- The entry that an iteration has come to, and the one after it. -/
theorem Shape.entry_next (hS : Shape d t (xs ++ a :: ys)) :
    ∃ e, d.heap a = some e ∧ e.next = ys.head?.getD NULL ∧ a ≠ NULL := by
  have ha : a ∈ xs ++ a :: ys := by simp
  obtain ⟨e, he⟩ := hS.entry ha
  have hlinks := hS.linked.segment.at
  rw [links, he, Option.map_some] at hlinks
  have hnext := congrArg Prod.snd (Option.some.inj hlinks)
  exact ⟨e, he, hnext, hS.linked.live a ha⟩

theorem Shape.begin_eq (hS : Shape d t ys) : d.begin = ys.head?.getD NULL := hS.linked.first

theorem Shape.keysLoop_eq {fuel : Nat} (hS : Shape d t (xs ++ ys)) (hfuel : ys.length < fuel) :
    d.keysLoop fuel (ys.head?.getD NULL) = (d.contents ys).map Prod.fst := by
  induction ys generalizing xs fuel with
  | nil =>
    obtain ⟨fuel, rfl⟩ := Nat.exists_eq_add_of_lt hfuel
    simp [keysLoop]
  | cons a ys ih =>
    obtain ⟨fuel, rfl⟩ := Nat.exists_eq_add_of_lt hfuel
    obtain ⟨e, he, hnext, hnull⟩ := hS.entry_next
    have hrest : d.keysLoop ((a :: ys).length + fuel) e.next = (d.contents ys).map Prod.fst := by
      rw [hnext]
      refine @ih (xs ++ [a]) _ (by simpa using hS) ?_
      rw [List.length_cons]
      omega
    rw [contents_cons he, List.map_cons, ← hrest, List.head?_cons, Option.getD_some, keysLoop, if_neg hnull, he]

theorem Represents.keys_eq {m : List (Key × Value)} (hd : Represents d m) : d.keys = m.map Prod.fst := by
  obtain ⟨t, order, hS, rfl⟩ := hd
  rw [keys, hS.begin_eq]
  exact @Shape.keysLoop_eq _ _ _ _ _ [] order _ hS hS.length_lt

theorem Represents.unique {m m' : List (Key × Value)} (hd : Represents d m) (hd' : Represents d m') : m = m' := by
  have hkeys : m.map Prod.fst = m'.map Prod.fst := hd.keys_eq.symm.trans hd'.keys_eq
  have hlen : m.length = m'.length := by simpa only [List.length_map] using congrArg List.length hkeys
  refine List.ext_getElem hlen fun i hi hi' => ?_
  have hkey : m[i].1 = m'[i].1 := by
    have hat := congrArg (fun ks => ks[i]?) hkeys
    simpa [hi, hi'] using hat
  have hvalue := get_spec hd m[i].1
  have hthis : KeyedList.lookup Hasher.hash m (Hasher.hash m[i].1) = some m[i].2 :=
    KeyedList.lookup_of_mem hd.distinct (List.getElem_mem hi)
  have hother : KeyedList.lookup Hasher.hash m' (Hasher.hash m'[i].1) = some m'[i].2 :=
    KeyedList.lookup_of_mem hd'.distinct (List.getElem_mem hi')
  rw [get_spec hd', hthis, hkey, hother] at hvalue
  exact Prod.ext hkey (Except.ok.inj (Option.some.inj hvalue)).symm

/-- Removing the entry that an iteration has come to moves it on, and leaves the others in their order. -/
theorem Shape.removeIterator_spec (hS : Shape d t (xs ++ a :: ys)) :
    ∃ d' t', d.removeIterator a = some (.ok (ys.head?.getD NULL, d')) ∧ Shape d' t' (xs ++ ys) ∧
      d'.contents xs = d.contents xs ∧ d'.contents ys = d.contents ys := by
  obtain ⟨e, he, hnext, hnull⟩ := hS.entry_next
  obtain ⟨q, hq, hcase⟩ := hS.find e.key
  have hh := hS.hashed a e he
  rcases hcase with ⟨-, hno⟩ | ⟨-, -, n, hn, hnh⟩
  · have hhas := hS.has he
    rw [hh, hno] at hhas
    cases hhas
  · obtain rfl : q = a := hS.unique hn he (hnh.trans hh.symm)
    obtain ⟨d', t', hd', hS', hsame⟩ := hS.dropMiddle
    refine ⟨d', t', ?_, hS', ?_, ?_⟩
    · simp [removeIterator, he, hq, hnull, hd', hnext]
    · exact contents_congr fun b hb => hsame b (List.mem_append_left ys hb)
    · exact contents_congr fun b hb => hsame b (List.mem_append_right xs hb)

end Dictionary

end Srl
