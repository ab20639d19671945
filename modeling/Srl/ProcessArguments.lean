import Srl.ProcessCommand

namespace Srl

open Bytes Session

namespace Process

/-- The name of a command. -/
structure Name (name : Bytes) : Prop where
  nonempty : name ≠ []
  text : ∀ c ∈ name, c ≠ 32 ∧ c ≠ 0

/-- An argument as it may stand in a command, in double quotes or without. -/
structure Writable (quoted : Bool) (a : Bytes) : Prop where
  nonempty : a ≠ []
  text : ∀ c ∈ a, c ≠ 34 ∧ c ≠ 10 ∧ c ≠ 0
  not_blank : a ≠ [32]
  bare : quoted = false → (∀ c ∈ a, c ≠ 32) ∧ a.head? ≠ some 39

def written (x : Bool × Bytes) : Bytes := if x.1 then 34 :: (x.2 ++ [34]) else x.2

/-- The arguments, each behind a blank. -/
def argumentList (args : List (Bool × Bytes)) : Bytes := args.flatMap fun x => 32 :: written x

def commandLine (name : Bytes) (args : List (Bool × Bytes)) : Bytes := name ++ argumentList args

variable {name a more command : Bytes} {args : List (Bool × Bytes)} {past : Nat → UInt8} {s : Scan} {pos rounds : Nat}
  {d : UInt8} {quoted : Bool}

/-- A text behind an argument: none, or another argument behind a blank. -/
def Follows (more : Bytes) : Prop := more = [] ∨ more.head? = some 32

theorem follows_argumentList (args : List (Bool × Bytes)) : Follows (argumentList args) := by
  cases args with
  | nil => exact Or.inl rfl
  | cons x args => exact Or.inr rfl

theorem file_eq (hname : Name name) (hmore : Follows more) : file (name ++ more) = name := by
  have hfind : ((name ++ more).find 32 0).getD (name ++ more).length = name.length := by
    obtain rfl | hhead := hmore
    · have hnone : name.find 32 0 = none := find_eq_none (by decide) fun c hc => (hname.text c hc).1
      rw [List.append_nil, hnone, Option.getD_none]
    · obtain ⟨rest, rfl⟩ := List.head?_eq_some_iff.mp hhead
      have hs : (name ++ 32 :: rest).drop 0 = name ++ 32 :: rest := rfl
      rw [find_eq hs (by decide) hname.text, Nat.zero_add, Option.getD_some]
  have hpos : name.length ≠ 0 := fun h => hname.nonempty (List.length_eq_zero_iff.mp h)
  rw [file, Bytes.section, sectionFrom, hfind, Nat.sub_zero, mid,
    if_pos (by rw [List.length_append]; omega), List.drop_zero,
    ofText, if_neg hpos, List.take_left']
  rfl

theorem Writable.listed_eq (ha : Writable quoted a) : listed a = [some a] := by
  have hcstr : cstr a = a := cstr_of_ne fun c hc => (ha.text c hc).2.2
  have hsame : same a (bytes " ") = false := by
    rw [same, hcstr]
    exact decide_eq_false ha.not_blank
  rw [listed, if_pos ⟨List.length_pos_of_ne_nil ha.nonempty, hsame⟩, hcstr]

theorem Writable.filter_eq (ha : Writable quoted a) : a.filter (· ≠ 0) = a :=
  List.filter_eq_self.mpr fun c hc => decide_eq_true (ha.text c hc).2.2

/-- The text behind a round: what ends the argument is passed unless it is a blank. -/
theorem drop_passed {w : Bytes} (hopen : w.drop (opens d w).2 = a ++ more) (htaken : taken d w = a) :
    w.drop (passed d w) = more.drop (if charAt more 0 = 32 then 0 else 1) := by
  rw [passed, htaken, ← charAt_drop, hopen, ← List.drop_drop, ← List.drop_drop, hopen, List.drop_left]
  have hend : charAt (a ++ more) a.length = charAt more 0 := by
    rw [← Nat.add_zero a.length, ← charAt_drop, List.drop_left]
  rw [hend]

/-- A round on an argument in quotes ends behind the closing one. -/
theorem round_quoted (ha : Writable true a) (d : UInt8) (arg more : Bytes) :
    argument d arg (32 :: 34 :: (a ++ 34 :: more)) = a ∧
      (32 :: 34 :: (a ++ 34 :: more)).drop (passed d (32 :: 34 :: (a ++ 34 :: more))) = more := by
  have hopens : opens d (32 :: 34 :: (a ++ 34 :: more)) = (34, 2) := opens_blank_quote (by decide) d _
  have htaken : taken d (32 :: 34 :: (a ++ 34 :: more)) = a := by
    rw [taken, hopens]
    show value 34 (a ++ 34 :: more) = a
    rw [value, List.takeWhile_append_of_pos (fun c hc => by simp [ha.text c hc]), List.takeWhile_cons_of_neg (by simp),
      List.append_nil]
  constructor
  · rw [argument, hopens, htaken, ha.filter_eq]
    rfl
  · rw [drop_passed (by rw [hopens]; rfl) htaken]
    rfl

/-- A round on an argument without quotes ends in front of the next blank. -/
theorem round_bare (ha : Writable false a) (d : UInt8) (arg : Bytes) (hmore : Follows more) :
    argument d arg (32 :: (a ++ more)) = a ∧
      (32 :: (a ++ more)).drop (passed d (32 :: (a ++ more))) = more := by
  obtain ⟨hblank, hhead⟩ := ha.bare rfl
  have hopens : opens d (32 :: (a ++ more)) = (32, 1) := by
    obtain ⟨c, b, rfl⟩ := List.exists_cons_of_ne_nil ha.nonempty
    have hquote : c ≠ 39 := fun h => hhead (by rw [h]; rfl)
    have hc : c ∉ delimiters := by
      simp [delimiters, hblank c List.mem_cons_self, ha.text c List.mem_cons_self, hquote]
    exact opens_blank hc d _
  have htaken : taken d (32 :: (a ++ more)) = a := by
    rw [taken, hopens]
    show value 32 (a ++ more) = a
    rw [value, List.takeWhile_append_of_pos (fun c hc => by simp [hblank c hc, ha.text c hc])]
    obtain rfl | hhead := hmore
    · exact List.append_nil a
    · obtain ⟨rest, rfl⟩ := List.head?_eq_some_iff.mp hhead
      rw [List.takeWhile_cons_of_neg (by simp), List.append_nil]
  constructor
  · rw [argument, hopens, htaken, ha.filter_eq]
    rfl
  · rw [drop_passed (by rw [hopens]; rfl) htaken]
    obtain rfl | hhead := hmore
    · rfl
    · obtain ⟨rest, rfl⟩ := List.head?_eq_some_iff.mp hhead
      rfl

theorem round_argument {x : Bool × Bytes} (hx : Writable x.1 x.2) (d : UInt8) (arg : Bytes) (hmore : Follows more) :
    argument d arg (32 :: written x ++ more) = x.2 ∧
      (32 :: written x ++ more).drop (passed d (32 :: written x ++ more)) = more := by
  obtain ⟨quoted, a⟩ := x
  cases quoted with
  | true =>
    have hw : 32 :: written (true, a) ++ more = 32 :: 34 :: (a ++ 34 :: more) := by
      rw [written, if_pos rfl, List.cons_append, List.cons_append, List.append_assoc]
      rfl
    rw [hw]
    exact round_quoted hx d arg more
  | false => exact round_bare hx d arg hmore

theorem written_ne_nil {x : Bool × Bytes} (hx : Writable x.1 x.2) : written x ≠ [] := by
  unfold written
  split
  next => exact List.cons_ne_nil _ _
  next => exact hx.nonempty

theorem scanLoop_splits (past : Nat → UInt8) (pos : Nat) (hargs : ∀ x ∈ args, Writable x.1 x.2)
    (hrest : command.drop pos = argumentList args) (hrounds : command.length - pos < rounds) :
    ∃ s', scanLoop command past rounds pos s = (.ok (), s') ∧ s'._argv = s._argv ++ args.map fun x => some x.2 := by
  induction args generalizing pos s rounds with
  | nil =>
    have hend : command.length ≤ pos := List.drop_eq_nil_iff.mp hrest
    exact ⟨s, scanLoop_end past hend (by omega), (List.append_nil _).symm⟩
  | cons x args ih =>
    obtain ⟨hx, hargs⟩ := List.forall_mem_cons.mp hargs
    have hw : command.drop pos = 32 :: written x ++ argumentList args := hrest
    have hlen := congrArg List.length hw
    rw [List.length_drop, List.length_append, List.length_cons] at hlen
    obtain ⟨rounds, rfl⟩ := Nat.exists_eq_succ_of_ne_zero (Nat.ne_zero_of_lt hrounds)
    have hpos : pos < command.length := by omega
    have hlast : command.drop pos ≠ [32] := fun h => by
      have hnil := (List.cons.inj (hw.symm.trans h)).2
      exact written_ne_nil hx (List.append_eq_nil_iff.mp hnil).1
    obtain ⟨rs, hrun, -⟩ := round_spec (s := s) past hpos hlast
    obtain ⟨hargument, hbehind⟩ := round_argument hx s.delimiter s.arg (follows_argumentList args)
    rw [← hw] at hargument hbehind
    rw [hargument, hx.listed_eq] at hrun
    rw [List.drop_drop] at hbehind
    have hlen' := congrArg List.length hbehind
    rw [List.length_drop] at hlen'
    have hless : command.length - (pos + passed s.delimiter (command.drop pos)) < rounds := by omega
    let next : Scan :=
      { arg := x.2
        delimiter := (opens s.delimiter (command.drop pos)).1
        _argv := s._argv ++ [some x.2]
        reads := rs }
    obtain ⟨s', hrest', hargv⟩ := ih (s := next) _ hargs hbehind hless
    exact ⟨s', (scanLoop_round hpos hrun).trans hrest', hargv.trans (List.append_assoc ..)⟩

/-- The name and the arguments, with the final `NULL`, as `_argv` gets them. -/
def argvOf (name : Bytes) (args : List (Bool × Bytes)) : List (Option Bytes) :=
  some name :: args.map (fun x => some x.2) ++ [none]

/-- A name and arguments come out of their command line as they were, and no command keeps the loop going. -/
theorem initialized_splits (past : Nat → UInt8) (hname : Name name) (hargs : ∀ x ∈ args, Writable x.1 x.2) :
    (∃ s, initialized (commandLine name args) past = (.ok (), s) ∧ s._argv = argvOf name args) ∧
      ∀ command, ∃ s, initialized command past = (.ok (), s) := by
  refine ⟨?_, fun command => initialized_returns command past⟩
  have hfile : file (commandLine name args) = name := file_eq hname (follows_argumentList args)
  have hrest : (commandLine name args).drop (file (commandLine name args)).length = argumentList args := by
    rw [hfile, commandLine, List.drop_left]
  have hcstr : cstr name = name := cstr_of_ne fun c hc => (hname.text c hc).2
  obtain ⟨s, hrun, hargv⟩ := scanLoop_splits (s := begun (commandLine name args)) past _ hargs hrest
    (Nat.lt_succ_of_le (Nat.sub_le ..))
  refine ⟨_, initialized_eq hrun, ?_⟩
  show s._argv ++ [none] = argvOf name args
  rw [hargv, begun, hfile, hcstr]
  rfl

theorem initialized_splits_ls :
    (∃ s, initialized (bytes "ls -l \"my file\" it's") (fun _ => 0) = (.ok (), s) ∧
        s._argv = [some (bytes "ls"), some (bytes "-l"), some (bytes "my file"), some (bytes "it's"), none]) ∧
      ∀ command, ∃ s, initialized command (fun _ => 0) = (.ok (), s) := by
  have hline : commandLine (bytes "ls") [(false, bytes "-l"), (true, bytes "my file"), (false, bytes "it's")] =
      bytes "ls -l \"my file\" it's" := by decide
  have hwritable : ∀ x ∈ [(false, bytes "-l"), (true, bytes "my file"), (false, bytes "it's")], Writable x.1 x.2 := by
    intro x hx
    simp only [List.mem_cons, List.not_mem_nil, or_false] at hx
    obtain rfl | rfl | rfl := hx
    · exact ⟨by decide, by decide, by decide, by decide⟩
    · exact ⟨by decide, by decide, by decide, by decide⟩
    · exact ⟨by decide, by decide, by decide, by decide⟩
  have hname : Name (bytes "ls") := ⟨by decide, by decide⟩
  have hsplits := initialized_splits (fun _ => 0) hname hwritable
  rw [hline] at hsplits
  exact hsplits

/-- A name with a `NUL` hides the blank behind it from `strchr`, and all of the command becomes the name. -/
theorem not_initialized_splits : ¬∀ (past : Nat → UInt8) (name : Bytes) (args : List (Bool × Bytes)), name ≠ [] →
    (∀ c ∈ name, c ≠ 32) → (∀ x ∈ args, Writable x.1 x.2) →
    ∃ s, initialized (commandLine name args) past = (.ok (), s) ∧ s._argv = argvOf name args := by
  intro hall
  have hwritable : ∀ x ∈ [(false, bytes "b")], Writable x.1 x.2 := by
    intro x hx
    rw [List.eq_of_mem_singleton hx]
    exact ⟨by decide, by decide, by decide, by decide⟩
  obtain ⟨s, hrun, hargv⟩ := hall (fun _ => 0) [97, 0] [(false, bytes "b")] (by decide) (by decide) hwritable
  have hlost : (initialized (commandLine [97, 0] [(false, bytes "b")]) (fun _ => 0)).2._argv = [some [97], none] := by
    decide
  rw [hrun, hargv] at hlost
  exact absurd hlost (by decide)

end Process

end Srl
