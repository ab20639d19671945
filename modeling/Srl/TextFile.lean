import Srl.BytesCut

namespace Srl

open Bytes

/-- A file that is open for reading: what is not yet read, and whether a read came to the end. -/
structure TextFile where
  rest : Bytes
  eof : Bool

namespace TextFile

/-- How far the first line goes, with its line feed. -/
def lineLength (s : Bytes) : Nat := ((s.findIdx? (· = 10)).map (· + 1)).getD s.length

/-- The C library's `fgets`. -/
def fgets (f : TextFile) (size : Nat) : Option Bytes × TextFile :=
  let got := f.rest.take (min (size - 1) (lineLength f.rest))
  (if got = [] then none else some got,
    ⟨f.rest.drop got.length, f.eof || decide (got.length < size - 1 ∧ got.getLast? ≠ some 10)⟩)

def stripEol (s : Bytes) : Bytes :=
  let s := if s.getLast? = some 10 then s.dropLast else s
  if s.getLast? = some 13 then s.dropLast else s

/-- The recursion of `readLine`. A resized string has room for 1040 characters. -/
def readLineLoop : Nat → TextFile → Bytes × TextFile
  | 0, f => ([], f)
  | fuel + 1, f =>
    match (f.fgets 1039).1 with
    | none => ([], (f.fgets 1039).2)
    | some got =>
      let text := cstr got
      if text.length < 1023 then (stripEol text, (f.fgets 1039).2)
      else
        let more := readLineLoop fuel (f.fgets 1039).2
        (text ++ more.1, more.2)

/-- `readLine`; every call of `fgets` takes something or comes to the end. -/
def readLine (f : TextFile) : Bytes × TextFile := readLineLoop (f.rest.length + 1) f

/-- How many calls of `fgets` are left at most. -/
def weight (f : TextFile) : Nat := f.rest.length + if f.eof then 0 else 1

variable {f : TextFile} {s u rest : Bytes} {e : Bool} {fuel : Nat}

theorem lineLength_pos (hs : s ≠ []) : 0 < lineLength s := by
  unfold lineLength
  cases s.findIdx? (· = 10) with
  | none => exact List.length_pos_of_ne_nil hs
  | some i => exact Nat.succ_pos i

theorem lineLength_append (hu : 10 ∉ u) : lineLength (u ++ 10 :: rest) = u.length + 1 := by
  have hidx : (u ++ 10 :: rest).findIdx? (· = 10) = some u.length := by
    rw [List.findIdx?_append, List.findIdx?_eq_none_iff.mpr fun c hc => by simpa using fun he : c = 10 => hu (he ▸ hc)]
    simp [List.findIdx?_cons]
  rw [lineLength, hidx]
  rfl

theorem lineLength_last (hu : 10 ∉ u) : lineLength u = u.length := by
  have hidx : u.findIdx? (· = 10) = none :=
    List.findIdx?_eq_none_iff.mpr fun c hc => by simpa using fun he : c = 10 => hu (he ▸ hc)
  rw [lineLength, hidx]
  rfl

theorem fgets_weight : (f.fgets 1039).2.weight ≤ f.weight ∧ (f.eof = false → (f.fgets 1039).2.weight < f.weight) := by
  by_cases hnil : f.rest = []
  · have hrun : f.fgets 1039 = (none, ⟨[], true⟩) := by
      rw [fgets, hnil]
      simp
    rw [hrun, weight, weight, hnil]
    exact ⟨Nat.zero_le _, fun he => by rw [he]; exact Nat.one_pos⟩
  · have hpos := lineLength_pos hnil
    have hlen := List.length_pos_of_ne_nil hnil
    have hless : (f.fgets 1039).2.rest.length < f.rest.length := by
      simp only [fgets, List.length_drop, List.length_take]
      omega
    have heof : f.eof = true → (f.fgets 1039).2.eof = true := fun he => by simp [fgets, he]
    have hlt : (f.fgets 1039).2.weight < f.weight := by
      unfold weight
      cases he : f.eof with
      | true => rw [heof he]; exact Nat.add_lt_add_right hless _
      | false => split <;> simp <;> omega
    exact ⟨hlt.le, fun _ => hlt⟩

theorem readLineLoop_weight : (readLineLoop fuel f).2.weight ≤ f.weight := by
  induction fuel generalizing f with
  | zero => exact Nat.le_refl _
  | succ fuel ih =>
    have hstep := (@fgets_weight f).1
    rw [readLineLoop]
    split
    next => exact hstep
    next =>
      dsimp only
      split
      next => exact hstep
      next => exact ih.trans hstep

/-- Reading a line comes nearer to the end. -/
theorem readLine_weight (h : f.eof = false) : f.readLine.2.weight < f.weight := by
  have hstep := (@fgets_weight f).2 h
  rw [readLine, readLineLoop]
  split
  next => exact hstep
  next =>
    dsimp only
    split
    next => exact hstep
    next => exact Nat.lt_of_le_of_lt readLineLoop_weight hstep

theorem stripEol_lf (h : u.getLast? ≠ some 13) : stripEol (u ++ [10]) = u := by
  rw [stripEol, if_pos List.getLast?_concat, List.dropLast_concat, if_neg h]

theorem stripEol_crlf (u : Bytes) : stripEol (u ++ [13, 10]) = u := by
  have hsplit : u ++ [13, 10] = (u ++ [13]) ++ [10] := by simp
  rw [hsplit, stripEol, if_pos List.getLast?_concat, List.dropLast_concat, if_pos List.getLast?_concat,
    List.dropLast_concat]

theorem stripEol_none (h₁ : u.getLast? ≠ some 10) (h₂ : u.getLast? ≠ some 13) : stripEol u = u := by
  rw [stripEol, if_neg h₁, if_neg h₂]

/-- The end of a line, or of the file. -/
inductive Eol : Bytes → Bytes → Prop
  | lf (rest : Bytes) : Eol [10] rest
  | crlf (rest : Bytes) : Eol [13, 10] rest
  | eof : Eol [] []

theorem readLine_short {t : Bytes} (ht : ∀ c ∈ t, c ≠ 0) (hne : t ≠ []) (hlen : t.length < 1023)
    (hline : lineLength (t ++ rest) = t.length) : (readLine ⟨t ++ rest, e⟩).1 = stripEol t := by
  have hgot : (t ++ rest).take (min (1039 - 1) t.length) = t := by
    rw [Nat.min_eq_right (by omega), List.take_left]
  have hrun : (fgets ⟨t ++ rest, e⟩ 1039).1 = some t := by
    rw [fgets, hline, hgot]
    exact if_neg hne
  rw [readLine, readLineLoop, hrun]
  dsimp only
  rw [cstr_of_ne ht, if_pos hlen]

/-- A line of moderate length, read from any place of a file. -/
theorem readLine_line {eol : Bytes} (hu : ∀ c ∈ u, c ≠ 10 ∧ c ≠ 0) (hne : u ≠ []) (hlen : u.length < 1000)
    (hlast : u.getLast? ≠ some 13) (heol : Eol eol rest) : (readLine ⟨u ++ eol ++ rest, e⟩).1 = u := by
  have h10 : 10 ∉ u := fun h => (hu 10 h).1 rfl
  cases heol with
  | lf =>
    rw [readLine_short, stripEol_lf hlast]
    · intro c hc
      rcases List.mem_append.mp hc with hc | hc
      · exact (hu c hc).2
      · obtain rfl := List.mem_singleton.mp hc
        decide
    · simp
    · rw [List.length_append, List.length_singleton]
      omega
    · rw [List.append_assoc, List.singleton_append, lineLength_append h10, List.length_append, List.length_singleton]
  | crlf =>
    have h10' : 10 ∉ u ++ [13] := by
      rw [List.mem_append, not_or]
      exact ⟨h10, by decide⟩
    rw [readLine_short, stripEol_crlf]
    · intro c hc
      rcases List.mem_append.mp hc with hc | hc
      · exact (hu c hc).2
      · exact (by decide : ∀ c ∈ ([13, 10] : Bytes), c ≠ 0) c hc
    · simp
    · rw [List.length_append]
      show u.length + 2 < _
      omega
    · have hsplit : u ++ [13, 10] ++ rest = (u ++ [13]) ++ 10 :: rest := by simp
      rw [hsplit, lineLength_append h10', List.length_append, List.length_append]
      rfl
  | eof =>
    rw [List.append_nil, readLine_short (fun c hc => (hu c hc).2) hne (by omega)
      (by rw [List.append_nil, lineLength_last h10]),
      stripEol_none _ hlast]
    exact fun h => h10 (List.mem_of_getLast? h)

/-- The lines that are read until the end was met. -/
def linesLoop : Nat → TextFile → List Bytes
  | 0, _ => []
  | fuel + 1, f => if f.eof then [] else f.readLine.1 :: linesLoop fuel f.readLine.2

/-- The lines of a file, as `readLine` delivers them. -/
def lines (content : Bytes) : List Bytes := linesLoop (content.length + 1) ⟨content, false⟩

theorem linesLoop_eof (h : f.eof = true) : linesLoop fuel f = [] := by
  cases fuel with
  | zero => rfl
  | succ fuel => rw [linesLoop, if_pos h]

end TextFile

end Srl
