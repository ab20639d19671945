import Srl.DictionaryMap

namespace Srl

open SearchTree

variable {Key Value : Type} {d : Dictionary Key Value} {m : List (Key × Value)}

/-- Keys that the hash tells apart. -/
class InjectiveHash (Key : Type) [Hasher Key] : Prop where
  injective : Function.Injective (Hasher.hash : Key → Int)

instance : InjectiveHash UInt32 := ⟨fun a b h => by
  have h : a.toBitVec.toInt = b.toBitVec.toInt := h
  exact UInt32.toBitVec_inj.mp (BitVec.toInt_inj.mp h)⟩

instance : InjectiveHash Int32 := ⟨fun _ _ h => Int32.toInt_inj.mp h⟩

namespace Dictionary

/-- The operations that change a dictionary; an iterator is the entry it points to. -/
inductive Op (Key Value : Type)
  | add (key : Key) (value : Value)
  | index (key : Key)
  | assign (key : Key) (value : Value)
  | remove (key : Key)
  | removeIterator (iter : Ptr)
  | clear

/-- An iterator that is passed to `remove` points to a live entry. -/
def Op.Valid (d : Dictionary Key Value) : Op Key Value → Prop
  | .removeIterator iter => (d.heap iter).isSome
  | _ => True

def Op.apply [Hasher Key] [Inhabited Value] (d : Dictionary Key Value) :
    Op Key Value → Option (Except DictException (Dictionary Key Value))
  | .add key value => d.add key value
  | .index key => (d.index key).map fun r => .ok r.2
  | .assign key value => (d.assign key value).map .ok
  | .remove key => d.remove key
  | .removeIterator iter => (d.removeIterator iter).map fun r => r.map Prod.snd
  | .clear => d.clear.map .ok

/-- The state after an operation, which is the one before it when the operation throws. -/
def after (d : Dictionary Key Value) : Except DictException (Dictionary Key Value) → Dictionary Key Value
  | .ok d' => d'
  | .error _ => d

/-- The same operation on the bindings in the order of their insertion. -/
def Op.onBindings [Hasher Key] [Inhabited Value] (d : Dictionary Key Value) (m : List (Key × Value)) :
    Op Key Value → List (Key × Value)
  | .add key value => if KeyedList.has Hasher.hash m (Hasher.hash key) then m else m ++ [(key, value)]
  | .index key => if KeyedList.has Hasher.hash m (Hasher.hash key) then m else m ++ [(key, default)]
  | .assign key value => KeyedList.assign Hasher.hash m key value
  | .remove key => KeyedList.erase Hasher.hash m (Hasher.hash key)
  | .removeIterator iter =>
    match d.heap iter with
    | some e => KeyedList.erase Hasher.hash m (Hasher.hash e.key)
    | none => m
  | .clear => []

/-- What an operation throws; `present` tells whether its key is there. -/
def Op.thrown (present : Key → Bool) : Op Key Value → Option DictException
  | .add key _ => if present key then some alreadyContains else none
  | .remove key => if present key then none else some doesNotExist
  | _ => none

/-- The same operation on a finite map. -/
def Op.onMap [DecidableEq Key] [Inhabited Value] (d : Dictionary Key Value)
    (f : Finmap fun _ : Key => Value) : Op Key Value → Finmap fun _ : Key => Value
  | .add key value => if key ∈ f then f else f.insert key value
  | .index key => if key ∈ f then f else f.insert key default
  | .assign key value => f.insert key value
  | .remove key => f.erase key
  | .removeIterator iter =>
    match d.heap iter with
    | some e => f.erase e.key
    | none => f
  | .clear => ∅

/-- The dictionaries that runs from the empty one reach. -/
inductive Reachable [Hasher Key] [Inhabited Value] : Dictionary Key Value → Prop
  | empty : Reachable empty
  | step {d r} {op : Op Key Value} (run : Reachable d) (valid : op.Valid d)
      (result : op.apply d = some r) : Reachable (d.after r)

/-- A dictionary reached from the empty one, and the finite map that the same run builds. -/
inductive Run [Hasher Key] [DecidableEq Key] [Inhabited Value] :
    Dictionary Key Value → (Finmap fun _ : Key => Value) → Prop
  | empty : Run empty ∅
  | step {d f r} {op : Op Key Value} (run : Run d f) (valid : op.Valid d)
      (result : op.apply d = some r) : Run (d.after r) (op.onMap d f)

/-- One operation: it returns, and it acts on the bindings. -/
theorem Represents.step [Hasher Key] [Inhabited Value] {op : Op Key Value} (hd : Represents d m)
    (valid : op.Valid d) :
    ∃ r, op.apply d = some r ∧
      (∀ x, r = .error x ↔
        op.thrown (fun key => KeyedList.has Hasher.hash m (Hasher.hash key)) = some x) ∧
      Represents (d.after r) (op.onBindings d m) := by
  cases op with
  | add key value =>
    have hadd := add_spec hd key value
    by_cases hk : KeyedList.has Hasher.hash m (Hasher.hash key)
    · rw [if_pos hk] at hadd
      exact ⟨_, hadd, by simp [Op.thrown, hk, eq_comm], by simpa [Op.onBindings, hk, after] using hd⟩
    · rw [if_neg hk] at hadd
      obtain ⟨d', hrun, hd'⟩ := hadd
      exact ⟨.ok d', hrun, by simp [Op.thrown, hk], by simpa [Op.onBindings, hk, after] using hd'⟩
  | index key =>
    obtain ⟨q, d', e, hrun, _, _, hcase⟩ := index_spec hd key
    refine ⟨.ok d', by rw [Op.apply, hrun]; rfl, by simp [Op.thrown], ?_⟩
    by_cases hk : KeyedList.has Hasher.hash m (Hasher.hash key)
    · rw [if_pos hk] at hcase
      simpa [Op.onBindings, hk, after, hcase] using hd
    · rw [if_neg hk] at hcase
      simpa [Op.onBindings, hk, after] using hcase
  | assign key value =>
    obtain ⟨d', hrun, hd'⟩ := assign_spec hd key value
    exact ⟨.ok d', by rw [Op.apply, hrun]; rfl, by simp [Op.thrown], hd'⟩
  | remove key =>
    have hremove := remove_spec hd key
    by_cases hk : KeyedList.has Hasher.hash m (Hasher.hash key)
    · rw [if_pos hk] at hremove
      obtain ⟨d', hrun, hd'⟩ := hremove
      exact ⟨.ok d', hrun, by simp [Op.thrown, hk], hd'⟩
    · rw [if_neg hk] at hremove
      refine ⟨_, hremove, by simp [Op.thrown, hk, eq_comm], ?_⟩
      rw [Bool.not_eq_true] at hk
      simpa [Op.onBindings, KeyedList.erase_of_not_has hk, after] using hd
  | removeIterator iter =>
    obtain ⟨e, he⟩ := Option.isSome_iff_exists.mp valid
    obtain ⟨_, d', hrun, hd'⟩ := removeIterator_spec hd he
    exact ⟨.ok d', by rw [Op.apply, hrun]; rfl, by simp [Op.thrown], by simpa [Op.onBindings, he, after] using hd'⟩
  | clear =>
    obtain ⟨d', hrun, hd'⟩ := clear_spec hd
    exact ⟨.ok d', by rw [Op.apply, hrun]; rfl, by simp [Op.thrown], hd'⟩

/-- The invariant of a run. -/
theorem Reachable.represents [Hasher Key] [Inhabited Value] (run : Reachable d) :
    ∃ m, Represents d m := by
  induction run with
  | empty => exact ⟨[], represents_empty⟩
  | step run valid result ih =>
    obtain ⟨m, hd⟩ := ih
    obtain ⟨r, hr, _, hd'⟩ := hd.step valid
    cases Option.some.inj (result.symm.trans hr)
    exact ⟨_, hd'⟩

variable [Hasher Key] [DecidableEq Key] [InjectiveHash Key] {f : Finmap fun _ : Key => Value}

theorem Represents.find_agrees (hd : Represents d m) (hf : KeyedList.Denotes Hasher.hash m f)
    (key : Key) :
    ∃ iter, d.find key = some iter ∧ ((iter = NULL ∧ key ∉ f) ∨
      (iter ≠ NULL ∧ ∃ e, d.heap iter = some e ∧ e.key = key ∧ f.lookup key = some e.value)) := by
  obtain ⟨q, hq, hcase⟩ := find_spec hd key
  refine ⟨q, hq, ?_⟩
  rw [← hf] at hcase
  rcases hcase with ⟨hz, hno⟩ | ⟨hz, e, he, _, hk, hl⟩
  · exact Or.inl ⟨hz, Finmap.lookup_eq_none.mp hno⟩
  · exact Or.inr ⟨hz, e, he, InjectiveHash.injective hk, hl⟩

variable [Inhabited Value]

/-- The bindings and the finite map change alike. -/
theorem denotes_step {op : Op Key Value} (hf : KeyedList.Denotes Hasher.hash m f) :
    KeyedList.Denotes Hasher.hash (op.onBindings d m) (op.onMap d f) := by
  have inj : Function.Injective (Hasher.hash : Key → Int) := InjectiveHash.injective
  cases op with
  | add key value =>
    by_cases hk : key ∈ f
    · simpa [Op.onBindings, Op.onMap, hk, hf.mem.mp hk] using hf
    · have hno := Bool.eq_false_iff.mpr fun h => hk (hf.mem.mpr h)
      simpa [Op.onBindings, Op.onMap, hk, hno] using hf.snoc inj hno
  | index key =>
    by_cases hk : key ∈ f
    · simpa [Op.onBindings, Op.onMap, hk, hf.mem.mp hk] using hf
    · have hno := Bool.eq_false_iff.mpr fun h => hk (hf.mem.mpr h)
      simpa [Op.onBindings, Op.onMap, hk, hno] using hf.snoc inj hno
  | assign key value => exact hf.assign inj
  | remove key => exact hf.erase inj
  | removeIterator iter =>
    cases he : d.heap iter with
    | none => simpa [Op.onBindings, Op.onMap, he] using hf
    | some e => simpa [Op.onBindings, Op.onMap, he] using hf.erase inj
  | clear => exact KeyedList.denotes_nil

theorem Run.represents (run : Run d f) :
    ∃ m, Represents d m ∧ KeyedList.Denotes Hasher.hash m f := by
  induction run with
  | empty => exact ⟨[], represents_empty, KeyedList.denotes_nil⟩
  | step run valid result ih =>
    obtain ⟨m, hd, hf⟩ := ih
    obtain ⟨r, hr, _, hd'⟩ := hd.step valid
    cases Option.some.inj (result.symm.trans hr)
    exact ⟨_, hd', denotes_step hf⟩

/-- The queries answer as the finite map does, the live entries form a binary search tree
with consistent parent links under the root, and every valid operation returns. -/
structure Agrees (d : Dictionary Key Value) (f : Finmap fun _ : Key => Value) : Prop where
  hasKey : ∀ key, d.hasKey key = some (decide (key ∈ f))
  get : ∀ key, d.get key = some (answer (f.lookup key))
  find : ∀ key, ∃ iter, d.find key = some iter ∧ ((iter = NULL ∧ key ∉ f) ∨
    (iter ≠ NULL ∧ ∃ e, d.heap iter = some e ∧ e.key = key ∧ f.lookup key = some e.value))
  index : ∀ key, ∃ q d' e, d.index key = some (q, d') ∧ d'.heap q = some e ∧ e.key = key ∧
    e.value = (f.lookup key).getD default
  tree : ∃ t, d.root = t.ptr ∧ Stored d.heap t NULL ∧ t.inorder.Nodup ∧ d.Ordered t ∧
    ∀ a, a ∈ t.inorder ↔ (d.heap a).isSome
  size : d.size.toNat = f.keys.card
  returns : ∀ op : Op Key Value, op.Valid d →
    ∃ r, op.apply d = some r ∧ ∀ x, r = .error x ↔ op.thrown (fun key => key ∈ f) = some x

theorem Represents.index_agrees (hd : Represents d m) (hf : KeyedList.Denotes Hasher.hash m f)
    (key : Key) :
    ∃ q d' e, d.index key = some (q, d') ∧ d'.heap q = some e ∧ e.key = key ∧
      e.value = (f.lookup key).getD default := by
  obtain ⟨q, d', e, hrun, he, hh, hcase⟩ := index_spec hd key
  have hd' : ∃ m', Represents d' m' ∧
      KeyedList.lookup Hasher.hash m' (Hasher.hash key) = some ((f.lookup key).getD default) := by
    rw [hf]
    split at hcase
    next hm =>
      obtain ⟨v, hv⟩ := Option.isSome_iff_exists.mp (KeyedList.lookup_isSome.trans hm)
      exact ⟨m, hcase ▸ hd, by rw [hv]; rfl⟩
    next hm =>
      rw [Bool.not_eq_true] at hm
      exact ⟨_, hcase, by rw [KeyedList.lookup_snoc_self hm, KeyedList.lookup_eq_none_iff.mpr hm]; rfl⟩
  obtain ⟨m', hd', hl⟩ := hd'
  obtain ⟨hk, hv⟩ := entry_spec hd' he
  rw [hh] at hk hv
  exact ⟨q, d', e, hrun, he, InjectiveHash.injective hk, Option.some.inj (hv.symm.trans hl)⟩

/-- Every dictionary that a run reaches agrees with the map of the same run. -/
theorem run_agrees (run : Run d f) (small : f.keys.card < 2 ^ 32) : Agrees d f := by
  obtain ⟨m, hd, hf⟩ := run.represents
  have inj : Function.Injective (Hasher.hash : Key → Int) := InjectiveHash.injective
  refine ⟨fun key => ?_, fun key => ?_, hd.find_agrees hf, hd.index_agrees hf, ?_, ?_, fun op valid => ?_⟩
  · rw [hasKey_spec hd, Bool.eq_iff_iff.mpr (hf.mem.symm.trans decide_eq_true_iff.symm)]
  · rw [get_spec hd, hf]
  · obtain ⟨t, order, hS, rfl⟩ := hd
    refine ⟨t, hS.focus.root, hS.focus.sub, hS.focus.nodup, hS.ordered, fun a => ⟨fun ha => ?_, fun ha => ?_⟩⟩
    · obtain ⟨e, he⟩ := (hS.focus.sub.live ha).2
      simp [he]
    · exact hS.perm.mem_iff.mpr (hS.live a ha)
  · rw [size_spec hd, hf.card inj hd.distinct, UInt32.toNat_ofNat_of_lt']
    rw [hf.card inj hd.distinct] at small
    exact small
  · obtain ⟨r, hr, hx, _⟩ := hd.step valid
    have hpresent : (fun key => KeyedList.has Hasher.hash m (Hasher.hash key)) = fun key => decide (key ∈ f) :=
      funext fun key => Bool.eq_iff_iff.mpr (hf.mem.symm.trans decide_eq_true_iff.symm)
    exact ⟨r, hr, hpresent ▸ hx⟩

/-- Two entries are added and the first is removed through an iterator. -/
theorem run_agrees_iterator :
    ∃ d : Dictionary UInt32 Nat, Agrees d (((∅ : Finmap _).insert 7 1 |>.insert 9 2).erase 7) := by
  have h₁ := Run.step .empty (show (Op.add (7 : UInt32) 1).Valid empty from trivial) rfl
  have h₂ := Run.step h₁ (show (Op.assign 9 2).Valid _ from trivial) rfl
  have h₃ := Run.step h₂ (show (Op.removeIterator 1).Valid _ from rfl) rfl
  exact ⟨_, run_agrees h₃ (by decide)⟩

end Dictionary

end Srl
