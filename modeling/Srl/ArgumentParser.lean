import Srl.BytesCut
import Srl.DictionaryOps
import Srl.KeyedList
import Srl.Session
import Mathlib.Data.List.DropRight

namespace Srl

open Bytes Session

structure Argument where
  _name : Bytes
  _keys : List Bytes
  _help : Bytes
  _value : Bytes
  _has_value : Bool
  _was_parsed : Bool
deriving DecidableEq

namespace Argument

/-- `parseKeys`: the fields between commas, without the blanks around them. -/
def parseKeys (keys : Bytes) : List Bytes :=
  (List.range (keys.countChar 44 + 1)).map fun i => (Bytes.section keys 44 i).trim

/-- The two constructors: an argument with a default value has a value. -/
def new (name keys help : Bytes) (default_value : Option Bytes) : Argument :=
  ⟨name, parseKeys keys, help, default_value.getD [], default_value.isSome, false⟩

def hasKey (a : Argument) (key : Bytes) : Bool := a._keys.any fun k => same k key

end Argument

/-- The parser. Its dictionary stands as the bindings that it has, in their order. -/
structure ArgumentParser where
  _args : List Bytes
  _arg_count : Nat
  _program : Bytes
  _arguments : List (Bytes × Argument)
deriving DecidableEq

namespace ArgumentParser

def add (p : ArgumentParser) (name keys help : Bytes) (default_value : Option Bytes) :
    Except DictException ArgumentParser :=
  if KeyedList.has Bytes.hash p._arguments name.hash then .error Dictionary.alreadyContains
  else .ok { p with _arguments := p._arguments ++ [(name, .new name keys help default_value)] }

/-- The place of the first argument that has a key. -/
def findArgByKey (p : ArgumentParser) (key : Bytes) : Option Nat := p._arguments.findIdx? fun a => a.2.hasKey key

def hasValue (p : ArgumentParser) (arg : Nat) : Bool := (p._arguments[arg]?).any fun a => a.2._has_value

/-- What `parse` makes of `argv[i]`. -/
inductive Treated
  | key (i arg : Nat)
  | value (i arg : Nat)
  | positional (i : Nat)
deriving DecidableEq

def Treated.index : Treated → Nat
  | .key i _ => i
  | .value i _ => i
  | .positional i => i

/-- The parser while it parses, with the indices at which `argv` was read and what became of its entries. -/
structure Parsing where
  parser : ArgumentParser
  reads : List Nat
  treated : List Treated
deriving DecidableEq

/-- What ends a call that does not return: `exit` is the one behind the help. -/
inductive Stop
  | exit
  | fault
  | unfinished
deriving DecidableEq

abbrev Call (β : Type) := Method Parsing Stop β

def update (arg : Nat) (f : Argument → Argument) : Call Unit :=
  modify fun s =>
    { s with parser := { s.parser with _arguments := s.parser._arguments.modify arg fun a => (a.1, f a.2) } }

def treat (t : Treated) : Call Unit := modify fun s => { s with treated := s.treated ++ [t] }

/-- `String(const char*)`, which makes nothing of `NULL`. -/
def stringOf (s : Option Bytes) : Bytes := (s.map cstr).getD []

section

variable (argv : List Bytes) (behind : Option Bytes)

/-- `argv[i]`. What is behind the last one is a text or `NULL`. -/
def argvAt (i : Nat) : Call (Option Bytes) := do
  modify fun s => { s with reads := s.reads ++ [i] }
  pure (argv[i]?.or behind)

/-- A text that has to be there. -/
def textAt (i : Nat) : Call Bytes := do
  match ← argvAt argv behind i with
  | some s => pure (cstr s)
  | none => throw .fault

/-- `_args[_arg_count] = argv[i]` and the step of `_arg_count`. -/
def keep (i : Nat) : Call Unit := do
  let text ← textAt argv behind i
  let s ← get
  if s.parser._arg_count < s.parser._args.length then
    treat (.positional i)
    modify fun s => { s with parser := { s.parser with
      _args := s.parser._args.set s.parser._arg_count text
      _arg_count := s.parser._arg_count + 1 } }
  else throw .fault

def helpAt (i : Nat) : Call Bool := do
  if same (bytes "--help") (← textAt argv behind i) then pure true
  else pure (same (bytes "-h") (← textAt argv behind i))

/-- The part of a round for an option, which returns the `i` that the round ends with. -/
def parseOption (i arg : Nat) : Call Nat := do
  treat (.key i arg)
  update arg fun a => { a with _was_parsed := true }
  if (← get).parser.hasValue arg then
    treat (.value (i + 1) arg)
    let value := stringOf (← argvAt argv behind (i + 1))
    update arg fun a => { a with _value := value }
    pure (i + 1)
  else pure i

/-- A round of `parse`. -/
def parseRound (i : Nat) : Call Nat := do
  if (← helpAt argv behind i) then throw .exit
  else
    let key := stringOf (← argvAt argv behind i)
    match (← get).parser.findArgByKey key with
    | some arg => parseOption argv behind i arg
    | none =>
      keep argv behind i
      pure i

def parseLoop : Nat → Nat → Call Unit
  | 0, _ => throw .unfinished
  | rounds + 1, i =>
    if i < argv.length then do parseLoop rounds ((← parseRound argv behind i) + 1) else pure ()

/-- Every round goes on by one at least, so that `argc` rounds are enough. -/
def parse : Call Unit := do
  modify fun s => { s with parser := { s.parser with _args := List.replicate argv.length [], _arg_count := 0 } }
  let program ← textAt argv behind 0
  modify fun s => { s with parser := { s.parser with _program := program } }
  parseLoop argv behind argv.length 1

end

def isHelp (s : Bytes) : Bool := same (bytes "--help") s || same (bytes "-h") s

def text (argv : List Bytes) (i : Nat) : Bytes := cstr (argv.getD i [])

/-- An option that takes a value has this key. -/
def valued (p : ArgumentParser) (a : Bytes) : Bool := (p.findArgByKey (cstr a)).any p.hasValue

def Treated.position : Treated → Option Nat
  | .positional i => some i
  | _ => none

/-- The entries of `argv` from `i` on and below `n` are treated once each, in their order: as a key of the first
option that has it, as the value of the option in front of it that takes one, or as a positional argument. -/
structure Split (p : ArgumentParser) (argv : List Bytes) (i n : Nat) (l : List Treated) : Prop where
  once : l.map Treated.index = List.range' i (n - i)
  key : ∀ k arg, .key k arg ∈ l → p.findArgByKey (text argv k) = some arg ∧
    (p.hasValue arg = true → .value (k + 1) arg ∈ l)
  value : ∀ k arg, .value k arg ∈ l → 0 < k ∧ .key (k - 1) arg ∈ l ∧ p.hasValue arg = true
  positional : ∀ k, .positional k ∈ l → p.findArgByKey (text argv k) = none

/-- What becomes of the entry at `i`, and of the one behind it where an option takes it. -/
def treats (p : ArgumentParser) (argv : List Bytes) (i : Nat) : List Treated :=
  match p.findArgByKey (text argv i) with
  | none => [.positional i]
  | some arg => if p.hasValue arg then [.key i arg, .value (i + 1) arg] else [.key i arg]

/-- What parsing does not change of an argument, which is all that it asks for. -/
def shape (a : Bytes × Argument) : List Bytes × Bool := (a.2._keys, a.2._has_value)

/-- A parser that has come to `argv[i]`. -/
structure Reached (p : ArgumentParser) (argv : List Bytes) (i : Nat) (s : Parsing) : Prop where
  alike : s.parser._arguments.map shape = p._arguments.map shape
  room : s.parser._args.length = argv.length
  count : s.parser._arg_count < i
  kept : s.parser._args.take s.parser._arg_count = (s.treated.filterMap Treated.position).map (text argv)

variable {p q : ArgumentParser} {argv : List Bytes} {behind : Option Bytes} {s : Parsing} {i j n arg rounds : Nat}
  {l l' : List Treated} {a b : Bytes} {as : List Bytes}

theorem findArgByKey_congr (h : q._arguments.map shape = p._arguments.map shape) (key : Bytes) :
    q.findArgByKey key = p.findArgByKey key := by
  have hshape : ∀ r : ArgumentParser, r.findArgByKey key =
      (r._arguments.map shape).findIdx? fun a => a.1.any fun k => same k key := fun r => by
    rw [List.findIdx?_map]
    rfl
  rw [hshape, hshape, h]

theorem hasValue_congr (h : q._arguments.map shape = p._arguments.map shape) (arg : Nat) :
    q.hasValue arg = p.hasValue arg := by
  have hshape : ∀ r : ArgumentParser, r.hasValue arg = ((r._arguments.map shape)[arg]?).any Prod.snd := fun r => by
    rw [List.getElem?_map, Option.any_map]
    rfl
  rw [hshape, hshape, h]

theorem map_shape_modify (as : List (Bytes × Argument)) (arg : Nat) (f : Argument → Argument)
    (hf : ∀ a, (f a)._keys = a._keys ∧ (f a)._has_value = a._has_value) :
    (as.modify arg fun a => (a.1, f a.2)).map shape = as.map shape := by
  refine List.ext_getElem? fun k => ?_
  rw [List.getElem?_map, List.getElem?_map, List.getElem?_modify]
  by_cases hk : arg = k
  · cases as[k]? with
    | none => rfl
    | some a => simp [hk, shape, hf]
  · simp [hk]

theorem Split.append (h : Split p argv i j l) (h' : Split p argv j n l') (hij : i ≤ j) (hjn : j ≤ n) :
    Split p argv i n (l ++ l') := by
  refine ⟨?_, fun k arg hk => ?_, fun k arg hk => ?_, fun k hk => ?_⟩
  · obtain ⟨k, rfl⟩ := Nat.exists_eq_add_of_le hij
    rw [List.map_append, h.once, h'.once, Nat.add_sub_cancel_left, List.range'_append_1]
    congr 1
    omega
  · obtain hk | hk := List.mem_append.mp hk
    · exact (h.key k arg hk).imp_right fun himp hv => List.mem_append_left _ (himp hv)
    · exact (h'.key k arg hk).imp_right fun himp hv => List.mem_append_right _ (himp hv)
  · obtain hk | hk := List.mem_append.mp hk
    · obtain ⟨hpos, hkey, hv⟩ := h.value k arg hk
      exact ⟨hpos, List.mem_append_left _ hkey, hv⟩
    · obtain ⟨hpos, hkey, hv⟩ := h'.value k arg hk
      exact ⟨hpos, List.mem_append_right _ hkey, hv⟩
  · obtain hk | hk := List.mem_append.mp hk
    · exact h.positional k hk
    · exact h'.positional k hk

theorem treats_none (h : p.findArgByKey (text argv i) = none) : treats p argv i = [.positional i] := by
  rw [treats, h]

theorem treats_flag (h : p.findArgByKey (text argv i) = some arg) (hv : p.hasValue arg = false) :
    treats p argv i = [.key i arg] := by
  rw [treats, h]
  exact if_neg (by rw [hv]; exact Bool.false_ne_true)

theorem treats_valued (h : p.findArgByKey (text argv i) = some arg) (hv : p.hasValue arg = true) :
    treats p argv i = [.key i arg, .value (i + 1) arg] := by
  rw [treats, h]
  exact if_pos hv

theorem treats_split (p : ArgumentParser) (argv : List Bytes) (i : Nat) :
    Split p argv i (i + (treats p argv i).length) (treats p argv i) := by
  cases hfind : p.findArgByKey (text argv i) with
  | none =>
    rw [treats_none hfind]
    exact ⟨by simp [Treated.index], by simp, by simp, by simp [hfind]⟩
  | some arg =>
    cases hv : p.hasValue arg with
    | true =>
      rw [treats_valued hfind hv]
      exact ⟨by simp [Treated.index, List.range'], by simp [hfind], by simp [hv], by simp⟩
    | false =>
      rw [treats_flag hfind hv]
      exact ⟨by simp [Treated.index], by simp [hfind, hv], by simp, by simp⟩

theorem length_treats (p : ArgumentParser) (argv : List Bytes) (i : Nat) :
    (treats p argv i).length = if valued p (argv.getD i []) then 2 else 1 := by
  rw [valued, ← text]
  cases hfind : p.findArgByKey (text argv i) with
  | none => rw [treats_none hfind]; rfl
  | some arg =>
    rw [Option.any_some]
    cases hv : p.hasValue arg with
    | true => rw [treats_valued hfind hv]; rfl
    | false => rw [treats_flag hfind hv]; rfl

theorem treats_pos (p : ArgumentParser) (argv : List Bytes) (i : Nat) : 0 < (treats p argv i).length := by
  rw [length_treats]
  split <;> omega

theorem argvAt_eq (argv : List Bytes) (behind : Option Bytes) (i : Nat) (s : Parsing) :
    argvAt argv behind i s = (.ok (argv[i]?.or behind), { s with reads := s.reads ++ [i] }) := rfl

theorem textAt_eq (behind : Option Bytes) (hi : i < argv.length) :
    textAt argv behind i s = (.ok (text argv i), { s with reads := s.reads ++ [i] }) := by
  rw [textAt, bind_ok (argvAt_eq ..), List.getElem?_eq_getElem hi, text, List.getD_eq_getElem _ _ hi]
  rfl

theorem helpAt_eq (behind : Option Bytes) (hi : i < argv.length) (hhelp : isHelp (argv.getD i []) = false) :
    helpAt argv behind i s = (.ok false, { s with reads := s.reads ++ [i] ++ [i] }) := by
  rw [isHelp, Bool.or_eq_false_iff] at hhelp
  have hsame : ∀ t, same t (text argv i) = same t (argv.getD i []) := fun t => by
    rw [same, same, text, cstr_cstr]
  rw [helpAt, bind_ok (textAt_eq behind hi), hsame, hhelp.1, if_neg Bool.false_ne_true, bind_ok (textAt_eq behind hi),
    hsame, hhelp.2]
  rfl

theorem keep_eq (behind : Option Bytes) (hi : i < argv.length) (hroom : s.parser._arg_count < s.parser._args.length) :
    keep argv behind i s = (.ok (),
      { parser := { s.parser with
          _args := s.parser._args.set s.parser._arg_count (text argv i)
          _arg_count := s.parser._arg_count + 1 }
        reads := s.reads ++ [i]
        treated := s.treated ++ [.positional i] }) := by
  rw [keep, bind_ok (textAt_eq behind hi), get_bind, if_pos hroom]
  rfl

/-- A positional argument is kept behind those before it. -/
theorem Reached.keep (hs : Reached p argv i s) (hi : i < argv.length) (reads : List Nat) :
    Reached p argv (i + 1)
      { parser := { s.parser with
          _args := s.parser._args.set s.parser._arg_count (text argv i)
          _arg_count := s.parser._arg_count + 1 }
        reads := reads
        treated := s.treated ++ [.positional i] } := by
  have hcount := hs.count
  have hroom : s.parser._arg_count < s.parser._args.length := by
    rw [hs.room]
    omega
  refine ⟨hs.alike, ?_, Nat.succ_lt_succ hcount, ?_⟩
  · rw [List.length_set, hs.room]
  · rw [List.take_add_one, List.take_set, List.set_eq_of_length_le (by rw [List.length_take]; omega), hs.kept,
      List.getElem?_set_self hroom, List.filterMap_append, List.map_append]
    rfl

/-- An argument that is marked or gets its value leaves the others as they are. -/
theorem Reached.update (hs : Reached p argv i s) (arg : Nat) (f : Argument → Argument)
    (hf : ∀ a, (f a)._keys = a._keys ∧ (f a)._has_value = a._has_value) (hin : i ≤ n) (reads : List Nat) (t : Treated)
    (ht : t.position = none) :
    Reached p argv n
      { parser := { s.parser with _arguments := s.parser._arguments.modify arg fun a => (a.1, f a.2) }
        reads := reads
        treated := s.treated ++ [t] } := by
  refine ⟨?_, hs.room, Nat.lt_of_lt_of_le hs.count hin, ?_⟩
  · rw [map_shape_modify _ _ _ hf, hs.alike]
  · rw [hs.kept, List.filterMap_append, List.filterMap_cons_none ht, List.filterMap_nil, List.append_nil]

theorem parseOption_spec (behind : Option Bytes) (hs : Reached p argv i s) (hread : i ∈ s.reads)
    (hfind : p.findArgByKey (text argv i) = some arg) :
    ∃ s', parseOption argv behind i arg s = (.ok (i + (treats p argv i).length - 1), s') ∧
      Reached p argv (i + (treats p argv i).length) s' ∧ s'.treated = s.treated ++ treats p argv i ∧
      ∀ k, k ∈ s'.reads ↔ k ∈ s.reads ∨ k ∈ (treats p argv i).map Treated.index := by
  let parsed : Argument → Argument := fun a => { a with _was_parsed := true }
  let given : Argument → Argument := fun a => { a with _value := stringOf (argv[i + 1]?.or behind) }
  let marked : Parsing :=
    { parser := { s.parser with _arguments := s.parser._arguments.modify arg fun a => (a.1, parsed a.2) }
      reads := s.reads
      treated := s.treated ++ [.key i arg] }
  have hmarked : ∀ n, i ≤ n → Reached p argv n marked := fun n hn =>
    hs.update arg parsed (fun _ => ⟨rfl, rfl⟩) hn s.reads (.key i arg) rfl
  have hhas : marked.parser.hasValue arg = p.hasValue arg := hasValue_congr (hmarked i (Nat.le_refl i)).alike arg
  have hrun : parseOption argv behind i arg s = (do
      if marked.parser.hasValue arg then
        treat (.value (i + 1) arg)
        let value := stringOf (← argvAt argv behind (i + 1))
        update arg fun a => { a with _value := value }
        pure (i + 1)
      else pure i : Call Nat) marked := rfl
  rw [hrun, hhas]
  cases hv : p.hasValue arg with
  | false =>
    rw [treats_flag hfind hv]
    refine ⟨marked, rfl, hmarked (i + 1) (Nat.le_succ i), rfl, fun k => ⟨Or.inl, ?_⟩⟩
    rintro (hk | hk)
    · exact hk
    · rw [List.eq_of_mem_singleton hk]
      exact hread
  | true =>
    rw [treats_valued hfind hv]
    let valued : Parsing :=
      { parser := { marked.parser with _arguments := marked.parser._arguments.modify arg fun a => (a.1, given a.2) }
        reads := s.reads ++ [i + 1]
        treated := marked.treated ++ [.value (i + 1) arg] }
    have hvalued : Reached p argv (i + 2) valued :=
      (hmarked i (Nat.le_refl i)).update arg given (fun _ => ⟨rfl, rfl⟩) (Nat.le_add_right i 2) _
        (.value (i + 1) arg) rfl
    refine ⟨valued, rfl, hvalued, List.append_assoc .., fun k => ?_⟩
    show k ∈ s.reads ++ [i + 1] ↔ k ∈ s.reads ∨ k ∈ [i, i + 1]
    rw [List.mem_append, List.mem_singleton, List.mem_cons, List.mem_singleton]
    refine ⟨fun h => h.imp_right Or.inr, ?_⟩
    rintro (hk | rfl | hk)
    · exact Or.inl hk
    · exact Or.inl hread
    · exact Or.inr hk

/-- A round: what it reads is what it treats. -/
theorem parseRound_spec (behind : Option Bytes) (hs : Reached p argv i s) (hi : i < argv.length)
    (hhelp : isHelp (argv.getD i []) = false) :
    ∃ s', parseRound argv behind i s = (.ok (i + (treats p argv i).length - 1), s') ∧
      Reached p argv (i + (treats p argv i).length) s' ∧ s'.treated = s.treated ++ treats p argv i ∧
      ∀ k, k ∈ s'.reads ↔ k ∈ s.reads ∨ k ∈ (treats p argv i).map Treated.index := by
  have hcount := hs.count
  have hroom : s.parser._arg_count < s.parser._args.length := by
    rw [hs.room]
    omega
  have hkey : stringOf (argv[i]?.or behind) = text argv i := by
    rw [List.getElem?_eq_getElem hi, text, List.getD_eq_getElem _ _ hi]
    rfl
  let looked : Parsing := { s with reads := s.reads ++ [i] ++ [i] ++ [i] }
  have hlooked : Reached p argv i looked := ⟨hs.alike, hs.room, hs.count, hs.kept⟩
  have hreads : ∀ k, k ∈ looked.reads ↔ k ∈ s.reads ∨ k = i := fun k => by
    simp [looked]
  rw [parseRound, bind_ok (helpAt_eq behind hi hhelp), if_neg Bool.false_ne_true, bind_ok (argvAt_eq ..), get_bind,
    findArgByKey_congr hs.alike, hkey]
  cases hfind : p.findArgByKey (text argv i) with
  | none =>
    have hkeep := keep_eq (s := looked) behind hi hroom
    rw [treats_none hfind]
    show ∃ s', (keep argv behind i >>= fun _ => pure i) looked = _ ∧ _
    rw [bind_ok hkeep]
    refine ⟨_, rfl, hlooked.keep hi _, rfl, fun k => ?_⟩
    rw [List.mem_append, hreads, or_assoc]
    exact or_congr_right ⟨fun h => List.mem_singleton.mpr (h.elim id List.eq_of_mem_singleton), fun h => Or.inr h⟩
  | some arg =>
    obtain ⟨s', hrun, hreached, htreated, hreads'⟩ :=
      parseOption_spec behind hlooked ((hreads i).mpr (Or.inr rfl)) hfind
    refine ⟨s', hrun, hreached, htreated, fun k => ?_⟩
    have hmem : i ∈ (treats p argv i).map Treated.index := by
      have hpos := treats_pos p argv i
      rw [(treats_split p argv i).once, List.mem_range'_1]
      omega
    rw [hreads', hreads, or_assoc]
    exact or_congr_right ⟨fun h => h.elim (fun hk => hk ▸ hmem) id, Or.inr⟩

/-- The keys in a row at the end of a command line that belong to options with values. -/
def trailing (p : ArgumentParser) (as : List Bytes) : Nat := (as.rtakeWhile (valued p)).length

theorem rtakeWhile_cons (q : Bytes → Bool) (a : Bytes) (as : List Bytes) :
    (a :: as).rtakeWhile q = if as.all q && q a then a :: as else as.rtakeWhile q := by
  by_cases hall : ∀ c ∈ as, q c = true
  · have hself : as.rtakeWhile q = as := List.rtakeWhile_eq_self_iff.mpr hall
    have hreverse : ∀ c ∈ as.reverse, q c = true := fun c hc => hall c (List.mem_reverse.mp hc)
    rw [hself, List.all_eq_true.mpr hall, Bool.true_and, List.rtakeWhile, List.reverse_cons,
      List.takeWhile_append_of_pos hreverse, List.reverse_append, List.reverse_reverse, List.takeWhile_cons]
    split <;> rfl
  · have hshort : ¬(as.reverse.takeWhile q).length = as.reverse.length := fun hlen => by
      have hself := (List.takeWhile_prefix q).eq_of_length hlen
      exact hall fun c hc => List.takeWhile_eq_self_iff.mp hself c (List.mem_reverse.mpr hc)
    rw [Bool.eq_false_iff.mpr (mt List.all_eq_true.mp hall), Bool.false_and, List.rtakeWhile, List.reverse_cons,
      List.takeWhile_append, if_neg hshort]
    rfl

theorem trailing_of_not (h : valued p a = false) : trailing p (a :: as) = trailing p as := by
  rw [trailing, rtakeWhile_cons, h, Bool.and_false]
  rfl

theorem trailing_single (h : valued p a = true) : trailing p [a] = 1 := by
  rw [trailing, rtakeWhile_cons, h]
  rfl

/-- A key with its value does not change how many keys are left over. -/
theorem trailing_cons_cons (h : valued p a = true) : trailing p (a :: b :: as) % 2 = trailing p as % 2 := by
  rw [trailing, trailing, rtakeWhile_cons, rtakeWhile_cons, h, Bool.and_true, List.all_cons, Bool.and_comm]
  split
  next hall =>
    have hself := List.rtakeWhile_eq_self_iff.mpr (List.all_eq_true.mp (Bool.and_eq_true_iff.mp hall).1)
    rw [hself, List.length_cons, List.length_cons]
    omega
  next => rfl

theorem parseLoop_end (behind : Option Bytes) (hi : argv.length ≤ i) (hrounds : 0 < rounds) :
    parseLoop argv behind rounds i s = (.ok (), s) := by
  obtain ⟨rounds, rfl⟩ := Nat.exists_eq_succ_of_ne_zero hrounds.ne'
  rw [parseLoop, if_neg (Nat.not_lt.mpr hi)]
  rfl

/-- One round of the loop, and the entries of `argv` that the later ones treat. -/
theorem parseLoop_round (rounds : Nat) (behind : Option Bytes) (hs : Reached p argv i s) (hi : i < argv.length)
    (hhelp : isHelp (argv.getD i []) = false) :
    ∃ s', parseLoop argv behind (rounds + 1) i s =
        parseLoop argv behind rounds (i + (treats p argv i).length) s' ∧
      Reached p argv (i + (treats p argv i).length) s' ∧ s'.treated = s.treated ++ treats p argv i ∧
      ∀ k, k ∈ s'.reads ↔ k ∈ s.reads ∨ i ≤ k ∧ k < i + (treats p argv i).length := by
  obtain ⟨s', hrun, hreached, htreated, hreads⟩ := parseRound_spec behind hs hi hhelp
  have hpos := treats_pos p argv i
  refine ⟨s', ?_, hreached, htreated, fun k => ?_⟩
  · rw [parseLoop, if_pos hi, bind_ok hrun, Nat.sub_add_cancel (by omega)]
  · rw [hreads, (treats_split p argv i).once, List.mem_range'_1, Nat.add_sub_cancel_left]

/-- Where the loop ends. -/
def last (p : ArgumentParser) (argv : List Bytes) (i : Nat) : Nat := argv.length + trailing p (argv.drop i) % 2

theorem last_round (hi : i < argv.length) :
    i + (treats p argv i).length ≤ last p argv i ∧
      (i + (treats p argv i).length ≤ argv.length →
        last p argv (i + (treats p argv i).length) = last p argv i) := by
  rw [length_treats, last, last, List.drop_eq_getElem_cons hi, List.getD_eq_getElem _ _ hi]
  cases hv : valued p argv[i] with
  | false =>
    rw [trailing_of_not hv]
    exact ⟨by rw [if_neg Bool.false_ne_true]; omega, fun _ => rfl⟩
  | true =>
    rw [if_pos rfl]
    obtain hlt | hge := Nat.lt_or_ge (i + 1) argv.length
    · rw [List.drop_eq_getElem_cons hlt, trailing_cons_cons hv]
      exact ⟨by omega, fun _ => rfl⟩
    · rw [List.drop_eq_nil_of_le hge, trailing_single hv]
      exact ⟨by omega, fun hle => by omega⟩

theorem Split.nil (p : ArgumentParser) (argv : List Bytes) (i : Nat) : Split p argv i i [] :=
  ⟨by rw [Nat.sub_self]; rfl, by simp, by simp, by simp⟩

theorem parseLoop_spec (behind : Option Bytes) (hs : Reached p argv i s) (hi : i ≤ argv.length)
    (hrounds : argv.length < i + rounds) (hhelp : ∀ k, i ≤ k → k < argv.length → isHelp (argv.getD k []) = false) :
    ∃ s' l, parseLoop argv behind rounds i s = (.ok (), s') ∧ Reached p argv (last p argv i) s' ∧
      s'.treated = s.treated ++ l ∧ Split p argv i (last p argv i) l ∧
      ∀ k, k ∈ s'.reads ↔ k ∈ s.reads ∨ i ≤ k ∧ k < last p argv i := by
  induction rounds generalizing i s with
  | zero => omega
  | succ rounds ih =>
    obtain hend | hlt := Nat.eq_or_lt_of_le hi
    · have hlast : last p argv i = i := by
        rw [last, List.drop_eq_nil_of_le (Nat.le_of_eq hend.symm), hend]
        rfl
      rw [hlast]
      exact ⟨s, [], parseLoop_end behind (Nat.le_of_eq hend.symm) (Nat.succ_pos _), hs, (List.append_nil _).symm,
        Split.nil p argv i, fun k => ⟨Or.inl, fun h => h.elim id fun hk => by omega⟩⟩
    · obtain ⟨s₁, hround, hreached, htreated, hreads⟩ :=
        parseLoop_round rounds behind hs hlt (hhelp i (Nat.le_refl i) hlt)
      obtain ⟨hle, hrest⟩ := last_round (p := p) hlt
      have hlen := treats_pos p argv i
      have hsplit := treats_split p argv i
      generalize hj : i + (treats p argv i).length = j at *
      obtain hjle | hjgt := Nat.lt_or_ge argv.length j
      · have hlast : last p argv i = j := by
          have hmod : trailing p (argv.drop i) % 2 < 2 := Nat.mod_lt _ (by decide)
          unfold last at hle ⊢
          omega
        rw [hlast]
        exact ⟨s₁, treats p argv i, hround.trans (parseLoop_end behind hjle.le (by omega)), hreached,
          htreated, hsplit, hreads⟩
      · obtain ⟨s', l, hrun, hreached', htreated', hsplit', hreads'⟩ := ih hreached hjgt (by omega)
          fun k hk => hhelp k (by omega)
        rw [hrest hjgt] at hreached' hsplit' hreads'
        refine ⟨s', treats p argv i ++ l, hround.trans hrun, hreached', ?_,
          hsplit.append hsplit' (by omega) hle, fun k => ?_⟩
        · rw [htreated', htreated, List.append_assoc]
        · rw [hreads', hreads, or_assoc]
          exact or_congr_right (by omega)

/-- The command line is parsed without a read behind its end, every entry but the first is treated once, and the
positional arguments are kept in their order. -/
def Parses (p : ArgumentParser) (argv : List Bytes) (behind : Option Bytes) : Prop :=
  ∃ s, parse argv behind ⟨p, [], []⟩ = (.ok (), s) ∧ (∀ k ∈ s.reads, k < argv.length) ∧
    Split p argv 1 argv.length s.treated ∧
    s.parser._args.take s.parser._arg_count = (s.treated.filterMap Treated.position).map (text argv)

theorem parse_spec (p : ArgumentParser) (behind : Option Bytes) (hne : argv ≠ [])
    (hhelp : ∀ a ∈ argv.tail, isHelp a = false) :
    ∃ s, parse argv behind ⟨p, [], []⟩ = (.ok (), s) ∧ Reached p argv (last p argv 1) s ∧
      Split p argv 1 (last p argv 1) s.treated ∧ ∀ k, k ∈ s.reads ↔ k < last p argv 1 := by
  have hpos : 0 < argv.length := List.length_pos_of_ne_nil hne
  let cleared : Parsing := ⟨{ p with _args := List.replicate argv.length [], _arg_count := 0 }, [], []⟩
  let named : Parsing := ⟨{ cleared.parser with _program := text argv 0 }, [0], []⟩
  have hnamed : Reached p argv 1 named := ⟨rfl, List.length_replicate, Nat.zero_lt_one, rfl⟩
  have hhelp' : ∀ k, 1 ≤ k → k < argv.length → isHelp (argv.getD k []) = false := fun k hk hlt => by
    obtain ⟨k, rfl⟩ := Nat.exists_eq_add_of_le' hk
    have hk' : k < argv.tail.length := by
      rw [List.length_tail]
      omega
    have hmem : argv.tail[k] ∈ argv.tail := List.getElem_mem hk'
    rw [List.getElem_tail] at hmem
    rw [List.getD_eq_getElem _ _ hlt]
    exact hhelp _ hmem
  obtain ⟨s, l, hrun, hreached, htreated, hsplit, hreads⟩ :=
    parseLoop_spec behind hnamed hpos (Nat.lt_add_of_pos_left Nat.zero_lt_one) hhelp'
  have hparse : parse argv behind ⟨p, [], []⟩ = parseLoop argv behind argv.length 1 named := by
    rw [parse, modify_bind, bind_ok (textAt_eq (s := cleared) behind hpos)]
    rfl
  rw [List.nil_append] at htreated
  have hlast : argv.length ≤ last p argv 1 := Nat.le_add_right ..
  refine ⟨s, hparse.trans hrun, hreached, by rw [htreated]; exact hsplit, fun k => ?_⟩
  rw [hreads, List.mem_singleton]
  omega

/-- That is so exactly if the keys of options with values that stand in a row at the end are even in number: the last
of an odd number of them takes what is behind the command line. -/
theorem parses_iff (p : ArgumentParser) (behind : Option Bytes) (hne : argv ≠ [])
    (hhelp : ∀ a ∈ argv.tail, isHelp a = false) : Parses p argv behind ↔ trailing p argv.tail % 2 = 0 := by
  obtain ⟨s, hrun, hreached, hsplit, hreads⟩ := parse_spec p behind hne hhelp
  have hlast : last p argv 1 = argv.length + trailing p argv.tail % 2 := by
    rw [last, List.drop_one]
  constructor
  · rintro ⟨s', hrun', hreads', -⟩
    obtain ⟨-, rfl⟩ := Prod.mk.inj (hrun.symm.trans hrun')
    by_contra hodd
    have hbehind : argv.length ∈ s.reads := (hreads _).mpr (by omega)
    exact Nat.lt_irrefl _ (hreads' _ hbehind)
  · intro heven
    rw [hlast, heven, Nat.add_zero] at hsplit hreads
    exact ⟨s, hrun, fun k hk => (hreads k).mp hk, hsplit, hreached.kept⟩

/-- A parser with an option that takes no value and one that takes one. -/
def options : ArgumentParser where
  _args := []
  _arg_count := 0
  _program := []
  _arguments :=
    [(bytes "verbose", .new (bytes "verbose") (bytes "-v, --verbose") [] none),
      (bytes "port", .new (bytes "port") (bytes "-p, --port") [] (some (bytes "80")))]

example : ((ArgumentParser.mk [] 0 [] []).add (bytes "verbose") (bytes "-v, --verbose") [] none >>= fun p =>
    p.add (bytes "port") (bytes "-p, --port") [] (some (bytes "80"))) = .ok options := by rfl

theorem parses_iff_options :
    Parses options [bytes "httpd", bytes "-p", bytes "81", bytes "site", bytes "-p", bytes "-p"] none :=
  (parses_iff options none (List.cons_ne_nil _ _) (by decide)).mpr (by decide)

def DisjointKeys (p : ArgumentParser) : Prop :=
  p._arguments.Pairwise fun a b => ∀ k ∈ a.2._keys, ∀ k' ∈ b.2._keys, same k k' = false

instance (p : ArgumentParser) : Decidable (DisjointKeys p) := inferInstanceAs (Decidable (List.Pairwise _ _))

/-- The value of an option in last place is read behind the end. -/
theorem not_parses : ¬∀ (p : ArgumentParser) (argv : List Bytes) (behind : Option Bytes), DisjointKeys p → argv ≠ [] →
    (∀ a ∈ argv.tail, isHelp a = false) → Parses p argv behind := by
  intro hall
  have hne : [bytes "httpd", bytes "-p"] ≠ [] := List.cons_ne_nil _ _
  have hhelp : ∀ a ∈ [bytes "httpd", bytes "-p"].tail, isHelp a = false := by decide
  obtain ⟨s, hrun, -, -, hreads⟩ := parse_spec options none hne hhelp
  obtain ⟨s', hrun', hbelow, -⟩ := hall options _ none (by decide) hne hhelp
  obtain ⟨-, rfl⟩ := Prod.mk.inj (hrun.symm.trans hrun')
  have hbehind : 2 ∈ s.reads := (hreads 2).mpr (by decide)
  exact absurd (hbelow 2 hbehind) (by decide)

end ArgumentParser

end Srl
