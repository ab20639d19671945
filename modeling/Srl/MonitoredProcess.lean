import Srl.Monitor
import Srl.TextFileLines

namespace Srl

open Session

namespace TextFile

variable {f : TextFile} {fuel : Nat} {strip_eol : Bool}

/-- What a line leaves of the file does not depend on the flag. -/
theorem readLineWithLoop_snd : (readLineWithLoop strip_eol fuel f).2 = (readLineLoop fuel f).2 := by
  induction fuel generalizing f with
  | zero => rfl
  | succ fuel ih =>
    rw [readLineWithLoop, readLineLoop]
    cases (f.fgets 1039).1 with
    | none => rfl
    | some got =>
      dsimp only
      split
      next => rfl
      next => exact ih

theorem readLineWith_weight (h : f.eof = false) : (readLineWith strip_eol f).2.weight < f.weight := by
  rw [readLineWith, readLineWithLoop_snd]
  exact readLine_weight h

/-- Whatever is read is what stood in front of the rest. -/
theorem fgets_rest (f : TextFile) (size : Nat) : ((f.fgets size).1.getD []) ++ (f.fgets size).2.rest = f.rest := by
  unfold fgets
  dsimp only
  split
  next hnil =>
    rw [hnil]
    rfl
  next => exact List.prefix_iff_eq_append.mp (List.take_prefix _ _)

/-- The end is met with nothing left to read. -/
theorem fgets_end (hend : f.eof = true → f.rest = []) (h : (f.fgets 1039).2.eof = true) :
    (f.fgets 1039).2.rest = [] := by
  by_cases hnil : f.rest = []
  · simp [fgets, hnil]
  · obtain ⟨u, rest, hsplit, hfirst⟩ := exists_firstLine hnil
    have heof : f.eof = false := by
      by_contra hne
      exact hnil (hend (Bool.eq_true_of_not_eq_false hne))
    unfold fgets at h ⊢
    dsimp only at h ⊢
    rw [heof, Bool.false_or, decide_eq_true_eq, hsplit, hfirst.length] at h
    obtain ⟨hshort, hlast⟩ := h
    have hlen : u.length ≤ 1039 - 1 := by
      by_contra hlong
      rw [Nat.min_eq_left (by omega), List.length_take, List.length_append] at hshort
      omega
    rw [Nat.min_eq_right hlen, List.take_left] at hlast
    have hrest : rest = [] := not_not.mp (mt hfirst.ended hlast)
    rw [hsplit, hfirst.length, Nat.min_eq_right hlen, List.take_left, List.drop_left]
    exact hrest

/-- The pieces that lines are read in make up the file. -/
theorem readLineWithLoop_keeps (hzero : ∀ c ∈ f.rest, c ≠ 0) (hend : f.eof = true → f.rest = []) :
    (readLineWithLoop false fuel f).1 ++ (readLineWithLoop false fuel f).2.rest = f.rest ∧
      ((readLineWithLoop false fuel f).2.eof = true → (readLineWithLoop false fuel f).2.rest = []) := by
  induction fuel generalizing f with
  | zero => exact ⟨rfl, hend⟩
  | succ fuel ih =>
    have hrest := fgets_rest f 1039
    have hmet := fgets_end hend
    rw [readLineWithLoop]
    cases hgot : (f.fgets 1039).1 with
    | none =>
      rw [hgot] at hrest
      exact ⟨hrest, hmet⟩
    | some got =>
      rw [hgot, Option.getD_some] at hrest
      have hcstr : Bytes.cstr got = got := Bytes.cstr_of_ne fun c hc =>
        hzero c (hrest ▸ List.mem_append_left _ hc)
      obtain ⟨hkeeps, hlater⟩ := @ih (f.fgets 1039).2 (fun c hc => hzero c (hrest ▸ List.mem_append_right _ hc)) hmet
      dsimp only
      rw [hcstr]
      split
      next => exact ⟨hrest, hmet⟩
      next => exact ⟨by rw [List.append_assoc, hkeeps, hrest], hlater⟩

end TextFile

namespace Radmin

/-- How `MonitoredProcess::run` is left: at the end of the output, through a trigger that stops the monitor, or because
the thread was cancelled. -/
inductive Departure
  | ended
  | stopped
  | cancelled
deriving DecidableEq

/-- A monitor of a process, with what the process has yet to say and what was written to the log. -/
structure MonitoredProcess (Listener World : Type) where
  monitor : Monitor Listener World
  output : TextFile
  _log_path : Bytes
  log_file : Option Bytes

namespace MonitoredProcess

open Monitor

variable {Listener World : Type}

abbrev Call (Listener World β : Type) := Method (MonitoredProcess Listener World) Vector.Stop β

/-- What `readLine` returns next. -/
def line (p : MonitoredProcess Listener World) : Bytes := (p.output.readLineWith false).1

/-- That line is read, and written to the log if there is one. -/
def logLine (p : MonitoredProcess Listener World) : MonitoredProcess Listener World :=
  { p with output := (p.output.readLineWith false).2, log_file := p.log_file.map (· ++ p.line) }

def open_log (p : MonitoredProcess Listener World) : MonitoredProcess Listener World :=
  { p with log_file := if p._log_path = [] then none else some [] }

section

variable (fresh : Nat → Option Nat) (monitor_triggered : Listener → Nat × KeywordTrigger → World → World)
  (cancels : Nat → Bool)

/-- A round of `run` in front of `doStateCheck`: a line is read, logged and, if it is not empty, checked. -/
def checkLine : Call Listener World Bool := do
  let line := (← get).line
  modify logLine
  if line = [] then pure true
  else
    part MonitoredProcess.monitor (fun m p => { p with monitor := m }) (checkKeywords fresh monitor_triggered line)

/-- The loop of `run` from the round `i` on, behind which `doStateCheck` may find the thread cancelled. -/
def runLoop : Nat → Nat → Call Listener World Departure
  | 0, _ => throw .unfinished
  | rounds + 1, i => do
    if (← get).output.eof then pure .ended
    else if !(← checkLine fresh monitor_triggered) then pure .stopped
    else if cancels i then pure .cancelled
    else runLoop rounds (i + 1)

def run : Call Listener World Departure := do
  modify open_log
  runLoop fresh monitor_triggered cancels ((← get).output.weight + 1) 0

end

/-- The triggers that a line leaves. -/
def leaves (l : List (Nat × KeywordTrigger)) (line : Bytes) : List (Nat × KeywordTrigger) :=
  if line = [] then l else left line l

/-- The triggers that fire at some lines, one line after the other. -/
def alarms (l : List (Nat × KeywordTrigger)) : List Bytes → List (Nat × KeywordTrigger)
  | [] => []
  | line :: lines => (if line = [] then [] else fired line l) ++ alarms (leaves l line) lines

/-- A line at which a trigger stops the monitor. -/
def Stops (l : List (Nat × KeywordTrigger)) (line : Bytes) : Prop := line ≠ [] ∧ ∃ x ∈ l, stops line x = true

/-- Lines none of which stops the monitor. -/
def Quiet (l : List (Nat × KeywordTrigger)) : List Bytes → Prop
  | [] => True
  | line :: lines => ¬Stops l line ∧ Quiet (leaves l line) lines

/-- From `p` to `p'` the lines were read, logged and checked. -/
structure Saw (monitor_triggered : Listener → Nat × KeywordTrigger → World → World) (l : List (Nat × KeywordTrigger))
    (ls : List Listener) (p : MonitoredProcess Listener World) (lines : List Bytes)
    (p' : MonitoredProcess Listener World) : Prop where
  read : lines = TextFile.readLines false lines.length p.output
  logged : p'.log_file = p.log_file.map (· ++ lines.flatten)
  watches : Watches p'.monitor (lines.foldl leaves l) ls
  told : p'.monitor.world = tell monitor_triggered ls (alarms l lines) p.monitor.world
  whole : (∀ c ∈ p.output.rest, c ≠ 0) → (p.output.eof = true → p.output.rest = []) →
    lines.flatten ++ p'.output.rest = p.output.rest ∧ (p'.output.eof = true → p'.output.rest = [])

/-- What each way to leave the loop means for the lines that were read since the round `i`. -/
def Because (cancels : Nat → Bool) (l : List (Nat × KeywordTrigger)) (i : Nat) (lines : List Bytes)
    (output : TextFile) : Departure → Prop
  | .ended => Quiet l lines ∧ output.eof = true
  | .stopped => ∃ front line, lines = front ++ [line] ∧ Quiet l front ∧ Stops (front.foldl leaves l) line
  | .cancelled => Quiet l lines ∧ ∃ j, i + lines.length = j + 1 ∧ cancels j = true

variable (fresh : Nat → Option Nat) {monitor_triggered : Listener → Nat × KeywordTrigger → World → World}
  (cancels : Nat → Bool) {p p' p₁ : MonitoredProcess Listener World} {l : List (Nat × KeywordTrigger)}
  {ls : List Listener} {text : Bytes} {lines : List Bytes} {i rounds : Nat}

theorem saw_nil (h : Watches p.monitor l ls) : Saw monitor_triggered l ls p [] p where
  read := rfl
  logged := by
    cases p.log_file with
    | none => rfl
    | some log => exact congrArg some (List.append_nil log).symm
  watches := h
  told := rfl
  whole _ hend := ⟨rfl, hend⟩

/-- One line, and what comes after it. -/
theorem Saw.cons (h : Saw monitor_triggered l ls p [text] p₁) (hout : p₁.output = (p.output.readLineWith false).2)
    (h' : Saw monitor_triggered (leaves l text) ls p₁ lines p') : Saw monitor_triggered l ls p (text :: lines) p' where
  read := by
    have htext : text = (p.output.readLineWith false).1 := (List.cons.inj h.read).1
    rw [List.length_cons, TextFile.readLines, ← hout, ← h'.read, ← htext]
  logged := by
    rw [h'.logged, h.logged, Option.map_map]
    congr 1
    funext log
    simp
  watches := h'.watches
  told := by
    rw [h'.told, h.told, ← tell_append]
    simp [alarms]
  whole hzero hend := by
    obtain ⟨hrest, hmet⟩ := h.whole hzero hend
    obtain ⟨hrest', hmet'⟩ := h'.whole (fun c hc => hzero c (hrest ▸ List.mem_append_right _ hc)) hmet
    refine ⟨?_, hmet'⟩
    rw [List.flatten_cons, List.append_assoc, hrest', ← hrest]
    simp

/-- A line is seen whatever then becomes of the monitor, as long as that is what the line makes of it. -/
theorem saw_line {m : Monitor Listener World} (hwatches : Watches m (leaves l p.line) ls)
    (htold : m.world = tell monitor_triggered ls (alarms l [p.line]) p.monitor.world) :
    Saw monitor_triggered l ls p [p.line] { p.logLine with monitor := m } where
  read := rfl
  logged := by
    rw [List.flatten_singleton]
    rfl
  watches := hwatches
  told := htold
  whole hzero hend := by
    rw [List.flatten_singleton]
    exact TextFile.readLineWithLoop_keeps hzero hend

variable (monitor_triggered)

/-- A round reads the next line, and goes on unless a trigger stops the monitor at it. -/
theorem checkLine_saw (h : Watches p.monitor l ls) : ∃ on m,
    checkLine fresh monitor_triggered p = (.ok on, { p.logLine with monitor := m }) ∧
      Saw monitor_triggered l ls p [p.line] { p.logLine with monitor := m } ∧ (on = false ↔ Stops l p.line) := by
  by_cases hline : p.line = []
  · refine ⟨true, p.monitor, ?_, saw_line ?_ ?_, ?_⟩
    · rw [checkLine, get_bind, modify_bind, if_pos hline]
      rfl
    · rw [leaves, if_pos hline]
      exact h
    · rw [alarms, if_pos hline]
      rfl
    · simp [Stops, hline]
  · have hall : Watches p.monitor ([] ++ l) ls := h
    obtain ⟨m, hcheck, hwatches, htold⟩ := checkLoop_spec fresh monitor_triggered p.line hall
      (Nat.lt_succ_self l.length)
    have hrun : checkKeywords fresh monitor_triggered p.line p.logLine.monitor =
        (.ok (l.all fun x => !stops p.line x), m) := by
      show checkKeywords fresh monitor_triggered p.line p.monitor = _
      rw [checkKeywords, get_bind, h.size_eq]
      exact hcheck
    refine ⟨l.all fun x => !stops p.line x, m, ?_, saw_line ?_ ?_, ?_⟩
    · rw [checkLine, get_bind, modify_bind, if_neg hline]
      exact part_eq hrun
    · rw [leaves, if_neg hline]
      exact hwatches
    · rw [alarms, if_neg hline, alarms, List.append_nil]
      exact htold
    · simp [Stops, hline]

theorem runLoop_saw (h : Watches p.monitor l ls) (hrounds : p.output.weight < rounds) : ∃ departure p' lines,
    runLoop fresh monitor_triggered cancels rounds i p = (.ok departure, p') ∧
      Saw monitor_triggered l ls p lines p' ∧ Because cancels l i lines p'.output departure := by
  induction rounds generalizing p l i with
  | zero => exact absurd hrounds (Nat.not_lt_zero _)
  | succ rounds ih =>
    rw [runLoop, get_bind]
    cases heof : p.output.eof with
    | true => exact ⟨.ended, p, [], rfl, saw_nil h, trivial, heof⟩
    | false =>
      obtain ⟨on, m, hline, hsaw, hstops⟩ := checkLine_saw fresh monitor_triggered h
      rw [if_neg Bool.false_ne_true, bind_ok hline]
      cases on with
      | false => exact ⟨.stopped, _, _, rfl, hsaw, [], _, rfl, trivial, hstops.mp rfl⟩
      | true =>
        have hgoes : ¬Stops l p.line := fun hs => Bool.noConfusion (hstops.mpr hs)
        cases hcancel : cancels i with
        | true => exact ⟨.cancelled, _, _, rfl, hsaw, ⟨hgoes, trivial⟩, i, rfl, hcancel⟩
        | false =>
          have hless := @TextFile.readLineWith_weight p.output false heof
          obtain ⟨departure, p', lines, hrun, hrest, hwhy⟩ := ih hsaw.watches (by
            show (p.output.readLineWith false).2.weight < rounds
            omega)
          refine ⟨departure, p', p.line :: lines, hrun, hsaw.cons rfl hrest, ?_⟩
          cases departure with
          | ended => exact ⟨⟨hgoes, hwhy.1⟩, hwhy.2⟩
          | stopped =>
            obtain ⟨front, last, rfl, hquiet, hlast⟩ := hwhy
            exact ⟨p.line :: front, last, rfl, ⟨hgoes, hquiet⟩, hlast⟩
          | cancelled =>
            obtain ⟨hquiet, j, hj, hcancel⟩ := hwhy
            exact ⟨⟨hgoes, hquiet⟩, j, by rw [List.length_cons]; omega, hcancel⟩

end MonitoredProcess

end Radmin

end Srl
