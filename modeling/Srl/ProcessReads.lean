import Srl.ProcessCommand
import Mathlib.Data.List.DropRight

namespace Srl

open Bytes Session

namespace Process

/-- Where a text stops that is read character by character: in front of an argument, with the delimiter of the last
one; behind the blank in front of an argument, the next character of which may be another delimiter; or within an
argument that ends at its delimiter. -/
inductive Mode
  | between (d : UInt8)
  | blank
  | within (d : UInt8)
deriving DecidableEq

/-- A line end closes every argument. -/
def Mode.next : Mode → UInt8 → Mode
  | .between d, c => if c = 32 then .blank else if c ∈ delimiters then .within c else if c =
    10 then .between d else .within d
  | .blank, c => if c ∈ delimiters then .within c else if c = 10 then .between 32 else .within 32
  | .within d, c => if c = d then if d = 32 then .blank else .between d else if c = 10 then .between d else .within d

def modeAfter (m : Mode) (w : Bytes) : Mode := w.foldl Mode.next m

/-- The text behind the name of the command. -/
def behindName (command : Bytes) : Bytes := command.drop (file command).length

variable {command w : Bytes} {past : Nat → UInt8} {s : Scan} {pos rounds : Nat} {c d : UInt8} {m : Mode}

theorem between_of_not_delimiter (hd : d ∈ delimiters) (hc : c ∉ delimiters) :
    (Mode.between d).next c = (Mode.within d).next c := by
  have hblank : c ≠ 32 := fun h => hc (by rw [h]; decide)
  have hne : c ≠ d := fun h => hc (by rw [h]; exact hd)
  rw [Mode.next, if_neg hblank, if_neg hc, Mode.next, if_neg hne]

theorem blank_of_not_delimiter (hc : c ∉ delimiters) : Mode.blank.next c = (Mode.within 32).next c := by
  have hblank : c ≠ 32 := fun h => hc (by rw [h]; decide)
  rw [Mode.next, if_neg hc, Mode.next, if_neg hblank]

/-- The start of a round: from a delimiter on the text is within the argument. -/
theorem modeAfter_opens (hd : d ∈ delimiters) (hw : w ≠ []) (hlast : w ≠ [32]) :
    modeAfter (.between d) w = modeAfter (.within (opens d w).1) (w.drop (opens d w).2) := by
  obtain ⟨c, w, rfl⟩ := List.exists_cons_of_ne_nil hw
  by_cases hc : c ∈ delimiters
  · by_cases hblank : c = 32
    · subst hblank
      obtain ⟨e, w, rfl⟩ := List.exists_cons_of_ne_nil (fun h => hlast (by rw [h]) : w ≠ [])
      by_cases he : e ∈ delimiters
      · rw [opens_blank_quote he]
        show modeAfter (Mode.blank.next e) w = modeAfter (.within e) w
        rw [Mode.next, if_pos he]
      · rw [opens_blank he]
        show modeAfter (Mode.blank.next e) w = modeAfter ((Mode.within 32).next e) w
        rw [blank_of_not_delimiter he]
    · rw [opens_quote hc hblank]
      show modeAfter ((Mode.between d).next c) w = modeAfter (.within c) w
      rw [Mode.next, if_neg hblank, if_pos hc]
  · rw [opens_none hc]
    show modeAfter ((Mode.between d).next c) w = modeAfter ((Mode.within d).next c) w
    rw [between_of_not_delimiter hd hc]

/-- The end of a round: a blank that ends the argument is the one in front of the next. -/
theorem modeAfter_value (d : UInt8) (w : Bytes) : modeAfter (.within d) w = .blank ↔
    modeAfter (.between d) (w.drop ((value d w).length + if charAt w (value d w).length = 32 then 0 else 1))
      = .blank := by
  induction w with
  | nil => exact ⟨nofun, nofun⟩
  | cons c w ih =>
    by_cases hd : c = d
    · subst hd
      have hvalue : value c (c :: w) = [] := List.takeWhile_cons_of_neg (by simp)
      rw [hvalue]
      show modeAfter ((Mode.within c).next c) w = .blank ↔
        modeAfter (.between c) ((c :: w).drop (0 + if c = 32 then 0 else 1)) = .blank
      rw [Mode.next, if_pos rfl]
      by_cases hblank : c = 32
      · rw [if_pos hblank, if_pos hblank, hblank]
        rfl
      · rw [if_neg hblank, if_neg hblank]
        rfl
    · by_cases hline : c = 10
      · have hvalue : value d (c :: w) = [] := List.takeWhile_cons_of_neg (by simp [hline])
        rw [hvalue, hline]
        show modeAfter ((Mode.within d).next 10) w = .blank ↔ modeAfter (.between d) w = .blank
        rw [Mode.next, if_neg (hline ▸ hd), if_pos rfl]
      · have hvalue : value d (c :: w) = c :: value d w := List.takeWhile_cons_of_pos (by simp [hd, hline])
        rw [hvalue, List.length_cons, Nat.add_right_comm]
        show modeAfter ((Mode.within d).next c) w = .blank ↔ _
        rw [Mode.next, if_neg hd, if_neg hline]
        exact ih

theorem modeAfter_round (hd : d ∈ delimiters) (hw : w ≠ []) (hlast : w ≠ [32]) : modeAfter (.between d) w = .blank ↔
    modeAfter (.between (opens d w).1) (w.drop (passed d w)) = .blank := by
  rw [modeAfter_opens hd hw hlast, modeAfter_value, List.drop_drop, charAt_drop, ← taken, ← Nat.add_assoc, ← passed]

theorem scanLoop_inside (past : Nat → UInt8) (pos : Nat) (hd : s.delimiter ∈ delimiters) (hs : Inside command s.reads)
    (hrounds : command.length - pos < rounds) :
    ∃ s', scanLoop command past rounds pos s = (.ok (), s') ∧
      (Inside command s'.reads ↔ modeAfter (.between s.delimiter) (command.drop pos) ≠ .blank) := by
  induction rounds generalizing pos s with
  | zero => omega
  | succ rounds ih =>
    obtain hpos | hpos := Nat.lt_or_ge pos command.length
    · by_cases hlast : command.drop pos = [32]
      · obtain ⟨n, s', hrun, hn, hread, -, -⟩ := round_last past s hlast
        refine ⟨s', (scanLoop_round hpos hrun).trans (scanLoop_end past hn.le (by omega)), ?_⟩
        rw [hlast]
        exact ⟨fun hin => absurd (hin _ hread) (Nat.not_succ_le_self _), fun hne => absurd rfl hne⟩
      · obtain ⟨rs, hrun, hinside⟩ := round_spec (s := s) past hpos hlast
        have hne := drop_ne_nil hpos
        have hpassed := passed_pos hne hd
        let next : Scan :=
          { arg := argument s.delimiter s.arg (command.drop pos)
            delimiter := (opens s.delimiter (command.drop pos)).1
            _argv := s._argv ++ listed (argument s.delimiter s.arg (command.drop pos))
            reads := rs }
        obtain ⟨s', hrest, hiff⟩ := ih (s := next) (pos + passed s.delimiter (command.drop pos))
          (opens_mem hd (command.drop pos)) (hinside hs) (by omega)
        refine ⟨s', (scanLoop_round hpos hrun).trans hrest, ?_⟩
        rw [hiff, not_iff_not, modeAfter_round hd hne hlast, List.drop_drop]
    · refine ⟨s, scanLoop_end past hpos (Nat.succ_pos _), ?_⟩
      rw [List.drop_eq_nil_of_le hpos]
      exact iff_of_true hs Mode.noConfusion

theorem modeAfter_concat (m : Mode) (w : Bytes) (c : UInt8) : modeAfter m (w ++ [c]) = (modeAfter m w).next c := by
  rw [modeAfter, List.foldl_append]
  rfl

/-- In a text of blanks and plain characters it is the number of blanks at the end that counts. -/
theorem modeAfter_plain (hw : ∀ c ∈ w, c ≠ 34 ∧ c ≠ 39 ∧ c ≠ 0 ∧ c ≠ 10) :
    modeAfter (.within 32) w = if (w.rtakeWhile (· = 32)).length % 2 = 1 then .blank else .within 32 := by
  induction w using List.reverseRecOn with
  | nil => rfl
  | append_singleton w c ih =>
    rw [modeAfter_concat, ih fun e he => hw e (List.mem_append_left _ he)]
    by_cases hblank : c = 32
    · rw [List.rtakeWhile_concat_pos (fun x => decide (x = 32)) w c (decide_eq_true hblank),
        List.length_append, List.length_singleton, hblank]
      by_cases hodd : (w.rtakeWhile (· = 32)).length % 2 = 1
      · rw [if_pos hodd, if_neg (by omega)]
        rfl
      · rw [if_neg hodd, if_pos (by omega)]
        rfl
    · obtain ⟨h34, h39, h0, h10⟩ := hw c (List.mem_append_right _ (List.mem_singleton_self c))
      have hc : c ∉ delimiters := by
        simp [delimiters, hblank, h34, h39, h0]
      have hnext : (Mode.within 32).next c = .within 32 := by
        rw [Mode.next, if_neg hblank, if_neg h10]
      rw [List.rtakeWhile_concat_neg (fun x => decide (x = 32)) w c (by simpa using hblank)]
      split
      next => exact (blank_of_not_delimiter hc).trans hnext
      next => exact hnext

/-- Every character that `_initialize` reads of a command is one of the text or its terminator. -/
def ReadsInside (command : Bytes) (past : Nat → UInt8) : Prop :=
  ∃ s, initialized command past = (.ok (), s) ∧ Inside command s.reads

/-- That is so exactly if the text behind the name does not end right behind a blank that stands in front of an
argument. -/
theorem reads_inside_iff (command : Bytes) (past : Nat → UInt8) :
    ReadsInside command past ↔ modeAfter (.between 32) (behindName command) ≠ .blank := by
  have hd : (begun command).delimiter ∈ delimiters := List.mem_cons_self
  have hs : Inside command (begun command).reads := fun i hi => absurd hi List.not_mem_nil
  obtain ⟨s, hrun, hiff⟩ := scanLoop_inside past (file command).length hd hs (Nat.lt_succ_of_le (Nat.sub_le ..))
  rw [behindName]
  constructor
  · rintro ⟨s', hrun', hinside⟩
    obtain ⟨-, rfl⟩ := Prod.mk.inj ((initialized_eq hrun).symm.trans hrun')
    exact hiff.mp hinside
  · exact fun hne => ⟨_, initialized_eq hrun, hiff.mpr hne⟩

/-- A single blank at the end is followed by the terminator, which counts as a delimiter. -/
theorem not_reads_inside : ¬∀ (command : Bytes) (past : Nat → UInt8), ReadsInside command past := by
  intro hall
  obtain ⟨s, hrun, hinside⟩ := hall (bytes "ls ") (fun _ => 0)
  have hreads : (initialized (bytes "ls ") (fun _ => 0)).2.reads = [2, 3, 4] := by decide
  rw [hrun] at hreads
  exact absurd (hinside 4 (by rw [hreads]; decide)) (by decide)

end Process

end Srl
