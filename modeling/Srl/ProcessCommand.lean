import Srl.Session
import Srl.Uri
import Mathlib.Data.List.GetD

namespace Srl

open Bytes Session

namespace Process

def delimiters : Bytes := [32, 34, 39, 0]

/-- `_initialize` at work, with the indices at which it reads the command; `NULL` in `_argv` is `none`. -/
structure Scan where
  arg : Bytes
  delimiter : UInt8
  _argv : List (Option Bytes)
  reads : List Nat
deriving DecidableEq

inductive Stop
  | unfinished
deriving DecidableEq

abbrev Call (β : Type) := Method Scan Stop β

section

variable (command : Bytes) (past : Nat → UInt8)

/-- `command[i]`; what lies behind the terminator is `past`. -/
def readAt (i : Nat) : Call UInt8 := do
  modify fun s => { s with reads := s.reads ++ [i] }
  pure (if i ≤ command.length then command.charAt i else past i)

/-- `get_delimiter`, of the character at an index. -/
def get_delimiter (i : Nat) : Call Bool := do
  let c ← readAt command past i
  if c ∈ delimiters then
    modify fun s => { s with delimiter := c }
    pure true
  else pure false

/-- The first part of a round, which finds the delimiter of the next argument. -/
def open_argument (pos : Nat) : Call Nat := do
  if (← get_delimiter command past pos) then
    modify fun s => { s with arg := [] }
    if (← get).delimiter = 32 then
      if (← get_delimiter command past (pos + 1)) then pure (pos + 2) else pure (pos + 1)
    else pure (pos + 1)
  else pure pos

/-- The inner loop, which copies the value. -/
def valueLoop : Nat → Nat → Call Nat
  | 0, _ => throw .unfinished
  | fuel + 1, pos =>
    if pos < command.length then do
      if (← readAt command past pos) ≠ (← get).delimiter then
        if (← readAt command past pos) ≠ 10 then
          let c ← readAt command past pos
          modify fun s => { s with arg := s.arg.add c }
          valueLoop fuel (pos + 1)
        else pure pos
      else pure pos
    else pure pos

/-- The argument goes to `_argv` unless it is empty or a blank. -/
def add_argument : Call Unit :=
  modify fun s =>
    if 0 < s.arg.length ∧ same s.arg (bytes " ") = false then { s with _argv := s._argv ++ [some (cstr s.arg)] } else s

def close_argument (pos : Nat) : Call Nat := do
  if (← readAt command past pos) ≠ 32 then pure (pos + 1) else pure pos

/-- A round of the loop, which returns the position that it ends at. -/
def round (pos : Nat) : Call Nat := do
  let pos ← open_argument command past pos
  let pos ← valueLoop command past (command.length + 1) pos
  add_argument
  close_argument command past pos

def scanLoop : Nat → Nat → Call Unit
  | 0, _ => throw .unfinished
  | rounds + 1, pos =>
    if pos < command.length then do scanLoop rounds (← round command past pos) else pure ()

def file : Bytes := command.section 32 0

/-- `_initialize`. Every round goes on by one at least, so that the length is enough rounds. -/
def initializeArgv : Call Unit := do
  modify fun s => { s with _argv := s._argv ++ [some (cstr (file command))] }
  scanLoop command past (command.length + 1) (file command).length
  modify fun s => { s with _argv := s._argv ++ [none] }

/-- What `_initialize` makes of a command. -/
def initialized : Except Stop Unit × Scan := initializeArgv command past ⟨[], 32, [], []⟩

end

/-- The delimiter that a round finds in front of the text `w`, and the characters that it passes for it. -/
def opens (d : UInt8) (w : Bytes) : UInt8 × Nat :=
  if w.charAt 0 ∈ delimiters then
    if w.charAt 0 = 32 then if w.charAt 1 ∈ delimiters then (w.charAt 1, 2) else (32, 1)
    else (w.charAt 0, 1)
  else (d, 0)

/-- The characters that are copied up to the delimiter `d`. -/
def value (d : UInt8) (w : Bytes) : Bytes := w.takeWhile fun c => decide (c ≠ d ∧ c ≠ 10)

/-- The characters that a round copies. -/
def taken (d : UInt8) (w : Bytes) : Bytes := value (opens d w).1 (w.drop (opens d w).2)

/-- The argument that a round ends with. -/
def argument (d : UInt8) (arg w : Bytes) : Bytes :=
  (if (opens d w).2 = 0 then arg else []) ++ (taken d w).filter (· ≠ 0)

def listed (arg : Bytes) : List (Option Bytes) :=
  if 0 < arg.length ∧ same arg (bytes " ") = false then [some (cstr arg)] else []

/-- The characters that a round passes. -/
def passed (d : UInt8) (w : Bytes) : Nat :=
  (opens d w).2 + (taken d w).length + if w.charAt ((opens d w).2 + (taken d w).length) = 32 then 0 else 1

variable {command : Bytes} {past : Nat → UInt8} {s : Scan} {pos i fuel rounds : Nat} {c d : UInt8} {w : Bytes}

theorem opens_none (hc : c ∉ delimiters) (d : UInt8) (w : Bytes) : opens d (c :: w) = (d, 0) := if_neg hc

theorem opens_quote (hc : c ∈ delimiters) (hblank : c ≠ 32) (d : UInt8) (w : Bytes) : opens d (c :: w) = (c, 1) :=
  (if_pos hc).trans (if_neg hblank)

theorem opens_blank (hc : c ∉ delimiters) (d : UInt8) (w : Bytes) : opens d (32 :: c :: w) = (32, 1) :=
  (if_pos (by decide : (32 : UInt8) ∈ delimiters)).trans ((if_pos rfl).trans (if_neg hc))

theorem opens_blank_quote (hc : c ∈ delimiters) (d : UInt8) (w : Bytes) : opens d (32 :: c :: w) = (c, 2) :=
  (if_pos (by decide : (32 : UInt8) ∈ delimiters)).trans ((if_pos rfl).trans (if_pos hc))

theorem drop_ne_nil (hpos : pos < command.length) : command.drop pos ≠ [] :=
  fun h => absurd (List.drop_eq_nil_iff.mp h) (Nat.not_le.mpr hpos)

theorem charAt_drop (l : Bytes) (m n : Nat) : charAt (l.drop m) n = l.charAt (m + n) := by
  rw [charAt, charAt, List.getD_eq_getElem?_getD, List.getD_eq_getElem?_getD, List.getElem?_drop]

theorem readAt_eq (past : Nat → UInt8) (hi : i ≤ command.length) :
    readAt command past i s = (.ok (command.charAt i), { s with reads := s.reads ++ [i] }) := by
  unfold readAt
  rw [modify_bind, if_pos hi]
  rfl

theorem get_delimiter_eq (past : Nat → UInt8) (hi : i ≤ command.length) :
    get_delimiter command past i s = (.ok (decide (command.charAt i ∈ delimiters)),
      { s with
        delimiter := if command.charAt i ∈ delimiters then command.charAt i else s.delimiter
        reads := s.reads ++ [i] }) := by
  rw [get_delimiter, bind_ok (readAt_eq past hi)]
  by_cases hc : command.charAt i ∈ delimiters
  · rw [if_pos hc, if_pos hc, decide_eq_true hc]
    rfl
  · rw [if_neg hc, if_neg hc, decide_eq_false hc]
    rfl

/-- The command is read up to its terminator at most. -/
def Inside (command : Bytes) (reads : List Nat) : Prop := ∀ i ∈ reads, i ≤ command.length

theorem Inside.read {reads : List Nat} (h : Inside command reads) (hi : i ≤ command.length) :
    Inside command (reads ++ [i]) := fun k hk => by
  obtain hk | hk := List.mem_append.mp hk
  · exact h k hk
  · rw [List.eq_of_mem_singleton hk]
    exact hi

theorem open_argument_eq (past : Nat → UInt8) (hpos : pos < command.length) :
    ∃ rs, open_argument command past pos s = (.ok (pos + (opens s.delimiter (command.drop pos)).2),
        { s with
          arg := if (opens s.delimiter (command.drop pos)).2 = 0 then s.arg else []
          delimiter := (opens s.delimiter (command.drop pos)).1
          reads := rs }) ∧ (Inside command s.reads → Inside command rs) := by
  rw [opens, charAt_drop, charAt_drop, Nat.add_zero, open_argument, bind_ok (get_delimiter_eq past hpos.le)]
  by_cases hc : command.charAt pos ∈ delimiters
  · rw [decide_eq_true hc, if_pos hc, if_pos hc, if_pos rfl, modify_bind, get_bind]
    by_cases hblank : command.charAt pos = 32
    · rw [if_pos hblank, if_pos hblank, bind_ok (get_delimiter_eq past hpos)]
      by_cases hnext : command.charAt (pos + 1) ∈ delimiters
      · rw [decide_eq_true hnext, if_pos hnext, if_pos hnext, if_pos rfl]
        exact ⟨_, rfl, fun h => (h.read hpos.le).read hpos⟩
      · rw [decide_eq_false hnext, if_neg hnext, if_neg hnext, if_neg Bool.false_ne_true]
        refine ⟨_, ?_, fun h => (h.read hpos.le).read hpos⟩
        rw [hblank]
        rfl
    · rw [if_neg hblank, if_neg hblank]
      exact ⟨_, rfl, fun h => h.read hpos.le⟩
  · rw [decide_eq_false hc, if_neg hc, if_neg hc, if_neg Bool.false_ne_true]
    exact ⟨_, rfl, fun h => h.read hpos.le⟩

theorem add_eq (l : Bytes) (c : UInt8) : l.add c = l ++ [c].filter (· ≠ 0) := by
  unfold add
  by_cases hc : c = 0
  · rw [if_pos hc, hc]
    exact (List.append_nil l).symm
  · rw [if_neg hc, List.filter_cons_of_pos (by simpa using hc), List.filter_nil]

theorem valueLoop_eq (past : Nat → UInt8) (pos : Nat) (hfuel : command.length - pos < fuel) :
    ∃ rs, valueLoop command past fuel pos s = (.ok (pos + (value s.delimiter (command.drop pos)).length),
        { s with
          arg := s.arg ++ (value s.delimiter (command.drop pos)).filter (· ≠ 0)
          reads := rs }) ∧ (Inside command s.reads → Inside command rs) := by
  induction fuel generalizing pos s with
  | zero => omega
  | succ fuel ih =>
    by_cases hpos : pos < command.length
    · have hget : command.charAt pos = command[pos] := List.getD_eq_getElem _ _ hpos
      have hread : ∀ t : Scan, readAt command past pos t = (.ok command[pos], { t with reads := t.reads ++ [pos] }) :=
        fun t => by rw [readAt_eq past hpos.le, hget]
      rw [valueLoop, if_pos hpos, bind_ok (hread s), get_bind, List.drop_eq_getElem_cons hpos, value]
      by_cases hd : command[pos] = s.delimiter
      · rw [if_neg (not_not.mpr hd), List.takeWhile_cons_of_neg (by simp [hd])]
        exact ⟨_, by rw [List.filter_nil, List.append_nil]; rfl, fun h => h.read hpos.le⟩
      · rw [if_pos hd, bind_ok (hread _)]
        by_cases hline : command[pos] = 10
        · rw [if_neg (not_not.mpr hline), List.takeWhile_cons_of_neg (by simp [hline])]
          exact ⟨_, by rw [List.filter_nil, List.append_nil]; rfl, fun h => (h.read hpos.le).read hpos.le⟩
        · rw [if_pos hline, bind_ok (hread _), modify_bind, List.takeWhile_cons_of_pos (by simp [hd, hline])]
          let copied : Scan :=
            { s with arg := s.arg.add command[pos], reads := s.reads ++ [pos] ++ [pos] ++ [pos] }
          obtain ⟨rs, hrun, hinside⟩ := ih (s := copied) (pos + 1) (by omega)
          refine ⟨rs, hrun.trans ?_, fun h => hinside (((h.read hpos.le).read hpos.le).read hpos.le)⟩
          have harg : ∀ u : Bytes, copied.arg ++ u.filter (· ≠ 0) = s.arg ++
            (command[pos] :: u).filter (· ≠ 0) := fun u => by
            rw [show copied.arg = s.arg.add command[pos] from rfl, add_eq, List.append_assoc, ← List.filter_append]
            rfl
          rw [harg, List.length_cons, Nat.add_assoc, Nat.add_comm 1]
          rfl
    · rw [valueLoop, if_neg hpos, List.drop_eq_nil_of_le (Nat.not_lt.mp hpos), value, List.takeWhile_nil,
        List.filter_nil, List.append_nil]
      exact ⟨_, rfl, id⟩

theorem add_argument_eq (s : Scan) : add_argument s = (.ok (), { s with _argv := s._argv ++ listed s.arg }) := by
  unfold listed
  split
  next h => exact congrArg (Prod.mk _) (if_pos h)
  next h =>
    rw [List.append_nil]
    exact congrArg (Prod.mk _) (if_neg h)

theorem close_argument_eq (past : Nat → UInt8) (hi : i ≤ command.length) :
    close_argument command past i s =
      (.ok (i + if command.charAt i = 32 then 0 else 1), { s with reads := s.reads ++ [i] }) := by
  rw [close_argument, bind_ok (readAt_eq past hi)]
  by_cases hc : command.charAt i = 32
  · rw [if_neg (not_not.mpr hc), if_pos hc]
    rfl
  · rw [if_pos hc, if_neg hc]
    rfl

theorem opens_le (hw : w ≠ []) (hlast : w ≠ [32]) (d : UInt8) : (opens d w).2 ≤ w.length := by
  obtain ⟨c, w, rfl⟩ := List.exists_cons_of_ne_nil hw
  unfold opens
  split
  next =>
    split
    next hblank =>
      have hc : c = 32 := hblank
      have hne : w ≠ [] := fun h => hlast (by rw [h, hc])
      have hpos := List.length_pos_of_ne_nil hne
      split
      next => rw [List.length_cons]; exact Nat.succ_le_succ hpos
      next => exact Nat.succ_le_succ (Nat.zero_le _)
    next => exact Nat.succ_le_succ (Nat.zero_le _)
  next => exact Nat.zero_le _

theorem length_value_le (d : UInt8) (w : Bytes) : (value d w).length ≤ w.length :=
  (List.takeWhile_prefix _).length_le

/-- A round that does not begin with the last blank stays in the text. -/
theorem round_spec (past : Nat → UInt8) (hpos : pos < command.length) (hlast : command.drop pos ≠ [32]) :
    ∃ rs, round command past pos s = (.ok (pos + passed s.delimiter (command.drop pos)),
        { arg := argument s.delimiter s.arg (command.drop pos)
          delimiter := (opens s.delimiter (command.drop pos)).1
          _argv := s._argv ++ listed (argument s.delimiter s.arg (command.drop pos))
          reads := rs }) ∧ (Inside command s.reads → Inside command rs) := by
  have hle := opens_le (drop_ne_nil hpos) hlast s.delimiter
  obtain ⟨rs, hopen, hinside⟩ := open_argument_eq (s := s) past hpos
  set o := opens s.delimiter (command.drop pos) with ho
  let opened : Scan := { s with arg := if o.2 = 0 then s.arg else [], delimiter := o.1, reads := rs }
  obtain ⟨rs', hvalue, hinside'⟩ :=
    valueLoop_eq (s := opened) past (pos + o.2) (Nat.lt_succ_of_le (Nat.sub_le ..))
  have htaken : value opened.delimiter (command.drop (pos + o.2)) = taken s.delimiter (command.drop pos) := by
    rw [taken, List.drop_drop, ho]
  rw [htaken] at hvalue
  have hend : pos + o.2 + (taken s.delimiter (command.drop pos)).length ≤ command.length := by
    have hlen := length_value_le opened.delimiter (command.drop (pos + o.2))
    rw [← htaken]
    rw [List.length_drop] at hlen hle
    omega
  rw [round, bind_ok hopen, bind_ok hvalue, bind_ok (add_argument_eq _), close_argument_eq past hend]
  refine ⟨rs' ++ [pos + o.2 + (taken s.delimiter (command.drop pos)).length], ?_,
    fun h => (hinside' (hinside h)).read hend⟩
  rw [passed, charAt_drop, ← ho, ← Nat.add_assoc, ← Nat.add_assoc]
  rfl

/-- A round that begins with the last blank takes the terminator for a delimiter, and reads behind it. -/
theorem round_last (past : Nat → UInt8) (s : Scan) (hlast : command.drop pos = [32]) :
    ∃ n s', round command past pos s = (.ok n, s') ∧ command.length < n ∧ command.length + 1 ∈ s'.reads ∧
      s'._argv = s._argv ∧ s'.delimiter ∈ delimiters := by
  have hpos : pos + 1 = command.length := by
    have hlen := congrArg List.length hlast
    rw [List.length_drop, List.length_singleton] at hlen
    omega
  obtain ⟨rs, hopen, -⟩ := open_argument_eq (s := s) past (by omega : pos < command.length)
  have ho : opens s.delimiter (command.drop pos) = (0, 2) := by
    rw [hlast]
    rfl
  rw [ho] at hopen
  let opened : Scan := { s with arg := [], delimiter := 0, reads := rs }
  have hopen' : open_argument command past pos s = (.ok (pos + 2), opened) := hopen
  have hvalue : valueLoop command past (command.length + 1) (pos + 2) opened = (.ok (pos + 2), opened) := by
    rw [valueLoop, if_neg (by omega)]
    rfl
  have hread : readAt command past (pos + 2) opened =
      (.ok (past (pos + 2)), { opened with reads := rs ++ [pos + 2] }) := by
    unfold readAt
    rw [modify_bind, if_neg (by omega)]
    rfl
  have hadd : add_argument opened = (.ok (), opened) := by
    rw [add_argument_eq]
    exact congrArg (fun l => (_, { opened with _argv := l })) (List.append_nil _)
  have hzero : (0 : UInt8) ∈ delimiters := by decide
  have hmem : command.length + 1 ∈ rs ++ [pos + 2] := by
    rw [← hpos]
    exact List.mem_append_right _ (List.mem_singleton_self _)
  rw [round, bind_ok hopen', bind_ok hvalue, bind_ok hadd, close_argument, bind_ok hread]
  split
  next => exact ⟨_, _, rfl, by omega, hmem, rfl, hzero⟩
  next => exact ⟨_, _, rfl, by omega, hmem, rfl, hzero⟩

theorem passed_pos (hw : w ≠ []) (hd : d ∈ delimiters) : 0 < passed d w := by
  obtain ⟨c, w, rfl⟩ := List.exists_cons_of_ne_nil hw
  by_cases hc : c ∈ delimiters
  · have hopens : 0 < (opens d (c :: w)).2 := by
      rw [opens, if_pos (show charAt (c :: w) 0 ∈ delimiters from hc)]
      split
      next => split <;> exact Nat.succ_pos _
      next => exact Nat.succ_pos _
    rw [passed]
    omega
  · have hopens : opens d (c :: w) = (d, 0) := if_neg hc
    have htaken : taken d (c :: w) = value d (c :: w) := by
      rw [taken, hopens]
      rfl
    rw [passed, htaken, hopens, value]
    by_cases hline : c = 10
    · rw [List.takeWhile_cons_of_neg (by simp [hline]), hline]
      exact Nat.one_pos
    · have hne : c ≠ d := fun h => hc (h ▸ hd)
      rw [List.takeWhile_cons_of_pos (by simp [hne, hline]), List.length_cons]
      omega

theorem opens_mem (hd : d ∈ delimiters) (w : Bytes) : (opens d w).1 ∈ delimiters := by
  unfold opens
  split
  next hc =>
    split
    next =>
      split
      next hnext => exact hnext
      next => decide
    next => exact hc
  next => exact hd

theorem scanLoop_end (past : Nat → UInt8) (hpos : command.length ≤ pos) (hrounds : 0 < rounds) :
    scanLoop command past rounds pos s = (.ok (), s) := by
  obtain ⟨rounds, rfl⟩ := Nat.exists_eq_succ_of_ne_zero hrounds.ne'
  rw [scanLoop, if_neg (Nat.not_lt.mpr hpos)]
  rfl

theorem scanLoop_round {n : Nat} {s' : Scan} (hpos : pos < command.length)
    (hround : round command past pos s = (.ok n, s')) :
    scanLoop command past (rounds + 1) pos s = scanLoop command past rounds n s' := by
  rw [scanLoop, if_pos hpos, bind_ok hround]

/-- Every round goes on. -/
theorem round_returns (past : Nat → UInt8) (hpos : pos < command.length) (hd : s.delimiter ∈ delimiters) :
    ∃ n s', round command past pos s = (.ok n, s') ∧ pos < n ∧ s'.delimiter ∈ delimiters := by
  by_cases hlast : command.drop pos = [32]
  · obtain ⟨n, s', hrun, hn, -, -, hd'⟩ := round_last past s hlast
    exact ⟨n, s', hrun, hpos.trans hn, hd'⟩
  · obtain ⟨rs, hrun, -⟩ := round_spec (s := s) past hpos hlast
    exact ⟨_, _, hrun, Nat.lt_add_of_pos_right (passed_pos (drop_ne_nil hpos) hd), opens_mem hd _⟩

/-- The loop ends for every command. -/
theorem scanLoop_returns (past : Nat → UInt8) (pos : Nat) (hd : s.delimiter ∈ delimiters)
    (hrounds : command.length - pos < rounds) :
    ∃ s', scanLoop command past rounds pos s = (.ok (), s') := by
  induction rounds generalizing pos s with
  | zero => omega
  | succ rounds ih =>
    obtain hpos | hpos := Nat.lt_or_ge pos command.length
    · obtain ⟨n, s₁, hround, hn, hd₁⟩ := round_returns past hpos hd
      obtain ⟨s', hrest⟩ := ih n hd₁ (by omega)
      exact ⟨s', (scanLoop_round hpos hround).trans hrest⟩
    · exact ⟨s, scanLoop_end past hpos (Nat.succ_pos _)⟩

/-- The state in front of the loop. -/
def begun (command : Bytes) : Scan := ⟨[], 32, [some (cstr (file command))], []⟩

theorem initialized_eq {s : Scan} (h : scanLoop command past (command.length + 1) (file command).length
    (begun command) =
    (.ok (), s)) : initialized command past = (.ok (), { s with _argv := s._argv ++ [none] }) := by
  have hbegun : initialized command past = (scanLoop command past (command.length + 1)
    (file command).length >>= fun _ =>
      modify fun s => { s with _argv := s._argv ++ [none] } : Call Unit) (begun command) := rfl
  rw [hbegun, bind_ok h]
  rfl

theorem initialized_returns (command : Bytes) (past : Nat → UInt8) : ∃ s, initialized command past = (.ok (), s) := by
  have hd : (begun command).delimiter ∈ delimiters := List.mem_cons_self
  obtain ⟨s, hrun⟩ := scanLoop_returns past (file command).length hd (Nat.lt_succ_of_le (Nat.sub_le ..))
  exact ⟨_, initialized_eq hrun⟩

end Process

end Srl
