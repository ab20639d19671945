import Srl.DictionaryIteration
import Srl.DictionaryRuns

namespace Srl

open SearchTree LinkedList

variable {Key Value : Type} {d : Dictionary Key Value} {t : BinTree Color} {order xs ys : List Ptr}
  {m : List (Key × Value)} {ks : List Key} {op : Dictionary.Op Key Value}

namespace Dictionary

/-- The entries that an iterator visits by `++` until it is `end()`. -/
def walk (d : Dictionary Key Value) : Nat → Ptr → Option (List Ptr)
  | 0, _ => none
  | fuel + 1, iter =>
    if iter = NULL then some []
    else do
      let rest ← d.walk fuel (← d.next iter)
      some (iter :: rest)

/-- The keys that are there after an operation, in the order of their insertion. -/
def Op.onKeys [Hasher Key] (d : Dictionary Key Value) (ks : List Key) : Op Key Value → List Key
  | .add key _ | .index key | .assign key _ =>
    if ks.any fun k => Hasher.hash k = Hasher.hash key then ks else ks ++ [key]
  | .remove key => ks.filter fun k => Hasher.hash k ≠ Hasher.hash key
  | .removeIterator iter =>
    match d.heap iter with
    | some e => ks.filter fun k => Hasher.hash k ≠ Hasher.hash e.key
    | none => ks
  | .clear => []

/-- A dictionary reached from the empty one, and the keys that the same run has left. -/
inductive Course [Hasher Key] [Inhabited Value] : Dictionary Key Value → List Key → Prop
  | empty : Course empty []
  | step {d ks r} {op : Op Key Value} (run : Course d ks) (valid : op.Valid d) (result : op.apply d = some r) :
      Course (d.after r) (op.onKeys d ks)

/-- A walk over the dictionary visits `order`, the entries of its search tree with the keys `ks`. -/
structure Walks (d : Dictionary Key Value) (order : List Ptr) (ks : List Key) : Prop where
  visits : d.walk d.brk d.begin = some order
  nodup : order.Nodup
  tree : ∃ t, Focus d [] t ∧ d.Ordered t ∧ ∀ a, a ∈ order ↔ a ∈ t.inorder
  keys : (order.map fun a => (d.heap a).map Entry.key) = ks.map some
  size : d.size.toNat = order.length % 2 ^ 32
  first : d.first = order.head?.getD NULL
  last : d.last = order.getLast?.getD NULL
  mirror : ∀ a b e n, d.heap a = some e → d.heap b = some n → (e.next = b ↔ n.prev = a)
  before : ∀ e, d.heap d.first = some e → e.prev = NULL
  behind : ∀ e, d.heap d.last = some e → e.next = NULL

variable [Hasher Key]

theorem has_keys (h : Int) :
    KeyedList.has Hasher.hash m h = (m.map Prod.fst).any fun k => Hasher.hash k = h := by
  rw [KeyedList.has, List.any_map]
  rfl

theorem keys_erase (h : Int) :
    (KeyedList.erase Hasher.hash m h).map Prod.fst = (m.map Prod.fst).filter fun k => Hasher.hash k ≠ h := by
  rw [KeyedList.erase, List.filter_map]
  rfl

theorem keys_assign (key : Key) (value : Value) : (KeyedList.assign Hasher.hash m key value).map Prod.fst =
    if (m.map Prod.fst).any fun k => Hasher.hash k = Hasher.hash key then m.map Prod.fst
    else m.map Prod.fst ++ [key] := by
  rw [KeyedList.assign, has_keys]
  split
  next =>
    rw [List.map_map]
    refine List.map_congr_left fun p _ => ?_
    simp only [Function.comp_apply]
    split <;> rfl
  next => rw [List.map_append, List.map_singleton]

theorem keys_onBindings [Inhabited Value] : (op.onBindings d m).map Prod.fst = op.onKeys d (m.map Prod.fst) := by
  cases op with
  | add key value =>
    rw [Op.onBindings, Op.onKeys, has_keys, apply_ite (List.map Prod.fst), List.map_append, List.map_singleton]
  | index key =>
    rw [Op.onBindings, Op.onKeys, has_keys, apply_ite (List.map Prod.fst), List.map_append, List.map_singleton]
  | assign key value => exact keys_assign key value
  | remove key => exact keys_erase _
  | removeIterator iter =>
    rw [Op.onBindings, Op.onKeys]
    cases d.heap iter with
    | none => rfl
    | some e => exact keys_erase _
  | clear => rfl

theorem Course.represents [Inhabited Value] (run : Course d ks) : ∃ m, Represents d m ∧ m.map Prod.fst = ks := by
  induction run with
  | empty => exact ⟨[], represents_empty, rfl⟩
  | step run valid result ih =>
    obtain ⟨m, hd, rfl⟩ := ih
    obtain ⟨r, hr, -, hd'⟩ := hd.step valid
    cases Option.some.inj (result.symm.trans hr)
    exact ⟨_, hd', keys_onBindings⟩

theorem Shape.walk_eq {fuel : Nat} (hS : Shape d t (xs ++ ys)) (hfuel : ys.length < fuel) :
    d.walk fuel (ys.head?.getD NULL) = some ys := by
  induction ys generalizing xs fuel with
  | nil =>
    obtain ⟨fuel, rfl⟩ := Nat.exists_eq_add_of_lt hfuel
    rfl
  | cons a ys ih =>
    obtain ⟨fuel, rfl⟩ := Nat.exists_eq_add_of_lt hfuel
    obtain ⟨e, he, hnext, hnull⟩ := hS.entry_next
    have hrest : d.walk ((a :: ys).length + fuel) (ys.head?.getD NULL) = some ys := by
      refine @ih (xs ++ [a]) _ (by simpa using hS) ?_
      rw [List.length_cons]
      omega
    rw [List.head?_cons, Option.getD_some, walk, if_neg hnull, next, he, Option.map_some, hnext]
    simp only [Option.bind_eq_bind, Option.bind_some, hrest]

theorem Shape.keys_eq (hS : Shape d t order) :
    (order.map fun a => (d.heap a).map Entry.key) = ((d.contents order).map Prod.fst).map some := by
  have hlive : ∀ a ∈ order, ∃ e, d.heap a = some e := fun a ha => hS.entry ha
  clear hS
  induction order with
  | nil => rfl
  | cons a order ih =>
    obtain ⟨e, he⟩ := hlive a List.mem_cons_self
    rw [List.map_cons, ih fun b hb => hlive b (List.mem_cons_of_mem a hb), contents_cons he, he]
    rfl

theorem Shape.walks (hS : Shape d t order) : Walks d order ((d.contents order).map Prod.fst) := by
  have hnull : NULL ∉ order := fun h => hS.linked.live NULL h rfl
  have hsegment := hS.linked.segment
  refine ⟨?_, hS.nodup, ⟨t, hS.focus, hS.ordered, fun a => hS.perm.mem_iff.symm⟩, hS.keys_eq, ?_, hS.linked.first,
    hS.linked.last, ?_, ?_, ?_⟩
  · rw [hS.begin_eq]
    exact @Shape.walk_eq _ _ _ _ [] order _ _ hS hS.length_lt
  · rw [hS.size]
    rfl
  · intro a b e n he hn
    have hmirror := hsegment.mirror hnull hnull (hS.live a (by simp [he])) (hS.live b (by simp [hn]))
    simpa [links, he, hn, Entry.links] using hmirror
  · intro e he
    cases order with
    | nil => exact absurd (hS.live d.first (by simp [he])) List.not_mem_nil
    | cons a order =>
      have hfirst : d.first = a := hS.linked.first
      have hlinks := hsegment.1
      rw [links, ← hfirst, he, Option.map_some] at hlinks
      exact congrArg Prod.fst (Option.some.inj hlinks)
  · intro e he
    rcases List.eq_nil_or_concat order with rfl | ⟨us, a, rfl⟩
    · exact absurd (hS.live d.last (by simp [he])) List.not_mem_nil
    · rw [List.concat_eq_append] at hS hsegment
      have hlast : d.last = a := by
        rw [hS.linked.last, List.getLast?_concat]
        rfl
      have hlinks := hsegment.at
      rw [links, ← hlast, he, Option.map_some] at hlinks
      exact congrArg Prod.snd (Option.some.inj hlinks)

/-- In every state of a run a walk visits each entry of the search tree once, in the order in which the
keys were inserted. -/
theorem course_walks [Inhabited Value] (run : Course d ks) : ∃ order, Walks d order ks := by
  obtain ⟨m, ⟨t, order, hS, rfl⟩, rfl⟩ := run.represents
  exact ⟨order, hS.walks⟩

/-- Of three entries the middle one is removed. -/
theorem course_walks_middle : ∃ (d : Dictionary UInt32 Nat) (order : List Ptr), Walks d order [7, 5] := by
  have h₁ := Course.step .empty (show (Op.add (7 : UInt32) 1).Valid empty from trivial) rfl
  have h₂ := Course.step h₁ (show (Op.index 9).Valid _ from trivial) rfl
  have h₃ := Course.step h₂ (show (Op.assign 5 2).Valid _ from trivial) rfl
  have h₄ := Course.step h₃ (show (Op.removeIterator 2).Valid _ from rfl) rfl
  exact ⟨_, course_walks h₄⟩

/-- Distinct keys can be added one after the other. -/
theorem course_distinct {ks : List UInt32} (hks : ks.Nodup) : ∃ d : Dictionary UInt32 Nat, Course d ks := by
  induction ks using List.reverseRecOn with
  | nil => exact ⟨_, .empty⟩
  | append_singleton ks key ih =>
    obtain ⟨hnodup, -, hdisjoint⟩ := List.nodup_append.mp hks
    obtain ⟨d, run⟩ := ih hnodup
    obtain ⟨m, hd, -⟩ := run.represents
    have valid : (Op.add key 0).Valid d := trivial
    obtain ⟨r, hr, -⟩ := hd.step valid
    have hkeys : (Op.add key 0).onKeys d ks = ks ++ [key] := by
      rw [Op.onKeys, if_neg]
      simp only [List.any_eq_true, decide_eq_true_eq, not_exists, not_and]
      intro k hk he
      exact hdisjoint k hk key List.mem_cons_self (InjectiveHash.injective he)
    exact ⟨_, hkeys ▸ run.step valid hr⟩

/-- After 2³² insertions the size is 0 again. -/
theorem not_walks_wrapped : ¬∀ (d : Dictionary UInt32 Nat) (ks : List UInt32), Course d ks →
    ∃ order, Walks d order ks ∧ d.size.toNat = order.length := by
  intro h
  obtain ⟨ks, hks, hlen⟩ : ∃ ks : List UInt32, ks.Nodup ∧ ks.length = 2 ^ 32 := by
    refine ⟨(List.range (2 ^ 32)).map UInt32.ofNat, ?_, by rw [List.length_map, List.length_range]⟩
    refine List.Nodup.map_on (fun a ha b hb he => ?_) List.nodup_range
    have hn := congrArg UInt32.toNat he
    rwa [UInt32.toNat_ofNat_of_lt' (List.mem_range.mp ha), UInt32.toNat_ofNat_of_lt' (List.mem_range.mp hb)] at hn
  obtain ⟨d, run⟩ := course_distinct hks
  obtain ⟨order, hwalks, hsize⟩ := h d ks run
  have hkeys := congrArg List.length hwalks.keys
  rw [List.length_map, List.length_map, hlen, ← hsize] at hkeys
  exact absurd d.size.toNat_lt (by omega)

end Dictionary

end Srl
