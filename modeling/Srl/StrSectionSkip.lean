import Srl.StrSection

namespace Srl

open Cells Session Occurrences

namespace Str

variable {s : Str} {l front w x v : Bytes} {c : UInt8} {i k n : Nat}

/-- The maximal runs of characters other than `c`. -/
def runsOf (c : UInt8) (l : Bytes) : List Bytes := (l.splitOn c).filter (· ≠ [])

theorem runsOf_undelimited (h : c ∉ l) : runsOf c l = if l = [] then [] else [l] := by
  rw [runsOf, List.splitOn_eq_singleton h]
  by_cases hl : l = []
  · rw [if_pos hl, hl]
    rfl
  · rw [if_neg hl, List.filter_cons_of_pos (by simpa using hl), List.filter_nil]

theorem runsOf_delimited (h : c ∉ x) (hx : x ≠ []) (v : Bytes) : runsOf c (x ++ c :: v) = x :: runsOf c v := by
  rw [runsOf, List.splitOn_append_cons_self_of_not_mem h, List.filter_cons_of_pos (by simpa using hx), runsOf]

theorem runsOf_replicate (c : UInt8) (k : Nat) (w : Bytes) : runsOf c (List.replicate k c ++ w) = runsOf c w := by
  induction k with
  | zero => rfl
  | succ k ih =>
    have hsplit : (([] : Bytes) ++ c :: (List.replicate k c ++ w)).splitOn c =
        [] :: (List.replicate k c ++ w).splitOn c :=
      List.splitOn_append_cons_self_of_not_mem List.not_mem_nil _
    rw [List.nil_append] at hsplit
    rw [List.replicate_succ, List.cons_append, runsOf, hsplit, List.filter_cons_of_neg (by simp), ← ih, runsOf]

/-- With `n` characters in front of `w`, the place behind a delimiter of `w` is an `int32` where at most `d` runs
stand before it. -/
def Near (c : UInt8) (d n : Nat) (w : Bytes) : Prop :=
  ∀ y z, w = y ++ c :: z → (runsOf c y).length ≤ d → n + y.length + 1 < 2 ^ 31

theorem Near.leading {d : Nat} (h : Near c d n (List.replicate k c ++ w)) (hn : n < 2 ^ 31) : n + k < 2 ^ 31 := by
  cases k with
  | zero => exact hn
  | succ k =>
    have hruns : runsOf c (List.replicate k c) = [] := by
      rw [← List.append_nil (List.replicate k c), runsOf_replicate]
      rfl
    have hlast := h (List.replicate k c) w (by rw [List.replicate_succ']; simp) (by rw [hruns]; simp)
    rwa [List.length_replicate] at hlast

theorem Near.behind {d : Nat} (h : Near c (d + 1) n (List.replicate k c ++ (x ++ c :: v))) (hx : c ∉ x) (hne : x ≠ []) :
    n + k + x.length + 1 < 2 ^ 31 ∧ Near c d (n + k + x.length + 1) v := by
  constructor
  · have hnow := h (List.replicate k c ++ x) v (by simp) ?_
    · rw [List.length_append, List.length_replicate] at hnow
      omega
    · rw [runsOf_replicate, runsOf_undelimited hx, if_neg hne, List.length_singleton]
      omega
  · intro y z hv hruns
    have hlater := h (List.replicate k c ++ (x ++ c :: y)) z (by rw [hv]; simp) ?_
    · simp only [List.length_append, List.length_replicate, List.length_cons] at hlater
      omega
    · rw [runsOf_replicate, runsOf_delimited hx hne, List.length_cons]
      omega

theorem leading (c : UInt8) (w : Bytes) : ∃ k v, w = List.replicate k c ++ v ∧ v.head? ≠ some c := by
  induction w with
  | nil => exact ⟨0, [], rfl, nofun⟩
  | cons b w ih =>
    by_cases hb : b = c
    · obtain ⟨k, v, rfl, hv⟩ := ih
      exact ⟨k + 1, v, by rw [hb, List.replicate_succ, List.cons_append], hv⟩
    · exact ⟨0, b :: w, rfl, fun he => hb (Option.some.inj he)⟩

/-- The first of some delimiters, and the text with this one passed. -/
theorem replicate_front (hw : l = front ++ (List.replicate (k + 1) c ++ w)) :
    l.charAt front.length = c ∧ l = (front ++ [c]) ++ (List.replicate k c ++ w) := by
  rw [List.replicate_succ, List.cons_append] at hw
  constructor
  · rw [hw]
    exact Bytes.charAt_front front c _
  · rw [hw, List.append_assoc]
    rfl

namespace Shows

theorem readAt_eq (h : Shows s l) (hi : i ≤ l.length) (hsmall : i < 2 ^ 31) :
    readAt (int32 i) s = (.ok (l.charAt i), s) := by
  rw [readAt_natCast hsmall]
  exact h.read_eq hi

/-- The loop over delimiters stops in front of the first other character, which may be the terminator. -/
theorem skipLoop_eq (h : Shows s l) (hc : c ≠ 0) {rounds : Nat} (hw : l = front ++ (List.replicate k c ++ w))
    (hhead : w.head? ≠ some c) (hsmall : front.length + k < 2 ^ 31) (hrounds : k < rounds) :
    skipLoop c rounds (int32 (front.length - 1)) s =
      (.ok (int32 ((front ++ List.replicate k c).length - 1)), s) := by
  induction rounds generalizing front k with
  | zero => exact absurd hrounds (Nat.not_lt_zero _)
  | succ rounds ih =>
    have hle : front.length ≤ l.length := by
      rw [hw, List.length_append]
      omega
    rw [skipLoop, int32_sub_one, bind_ok (h.readAt_eq hle (by omega))]
    cases k with
    | zero =>
      have hother : l.charAt front.length ≠ c := by
        rw [hw]
        cases w with
        | nil =>
          simp only [List.replicate_zero, List.append_nil]
          rw [Bytes.charAt_length]
          exact hc.symm
        | cons b w =>
          rw [List.replicate_zero, List.nil_append, Bytes.charAt_front]
          exact fun he => hhead (congrArg some he)
      rw [if_neg hother, List.replicate_zero, List.append_nil]
      rfl
    | succ k =>
      obtain ⟨hchar, hall⟩ := replicate_front hw
      have hlen : (front ++ [c]).length = front.length + 1 := List.length_append
      rw [if_pos hchar, int32_behind front c, ih hall (by omega) (by omega), List.append_assoc, List.replicate_succ]
      rfl

end Shows

/-- Without empty fields the loop stops at run number `d` of what it has not yet passed, or it finds no such run:
then it stops at the end of the text, if not at another number. -/
theorem fieldLoop_skip {rounds d : Nat} {count field_num : Int} (h : Shows s l) (hl : ∀ b ∈ l, b ≠ 0)
    (hfew : l.length + 16 < 2 ^ 32) (hc : c ≠ 0) (hw : l = front ++ w) (hfront : front.length < 2 ^ 31)
    (hnear : Near c d front.length w) (hrounds : w.length < rounds) (hcount : -1 ≤ count)
    (hd : count + 1 + d = field_num) (hsmall : field_num < 2 ^ 31) :
    ∃ field, fieldLoop c field_num false rounds (int32 (front.length - 1)) count s = (.ok field, s) ∧
      (∀ x, (runsOf c w)[d]? = some x → x ≠ [] ∧ ∃ Q v, l = Q ++ (x ++ v) ∧
        field.start_pos = int32 Q.length ∧ field.stop_pos = (if v = [] then -1 else int32 (Q ++ x).length) ∧
        field.count = field_num) ∧
      ((runsOf c w)[d]? = none → field.stop_pos = -1 ∧
        (field.count ≠ field_num ∨ field.start_pos = int32 l.length)) := by
  induction rounds generalizing front w count d with
  | zero => exact absurd hrounds (Nat.not_lt_zero _)
  | succ rounds ih =>
    have hmem := h.length_lt
    obtain ⟨k, w, rfl, hhead⟩ := leading c w
    have hlen := congrArg List.length hw
    simp only [List.length_append, List.length_replicate] at hlen hrounds
    have hlong := hnear.leading hfront
    have hskip : skip c false (int32 (front.length - 1)) s =
        (.ok (int32 ((front ++ List.replicate k c).length - 1)), s) := by
      rw [skip, if_neg (by decide), get_bind]
      exact h.skipLoop_eq hc hw hhead hlong (by omega)
    have hw : l = (front ++ List.replicate k c) ++ w := by rw [hw, List.append_assoc]
    rw [fieldLoop_round h hfew hw hcount (by omega) hskip, runsOf_replicate]
    rcases delimited c w with hnone | ⟨x, v, rfl, hx⟩
    · rw [find_undelimited hc hw hnone, if_neg fun hgo => hgo.2 rfl, runsOf_undelimited hnone]
      by_cases hnil : w = []
      · rw [if_pos hnil]
        refine ⟨_, rfl, fun x hx => (by cases hx), fun _ => ⟨rfl, .inr ?_⟩⟩
        rw [hw, hnil, List.append_nil]
      · rw [if_neg hnil]
        cases d with
        | zero =>
          refine ⟨_, rfl, fun x hx => ?_, fun hmiss => by cases hmiss⟩
          cases hx
          refine ⟨hnil, _, [], by rw [List.append_nil]; exact hw, by dsimp only, rfl, ?_⟩
          show count + 1 = field_num
          omega
        | succ d =>
          refine ⟨_, rfl, fun x hx => (by cases hx), fun _ => ⟨rfl, .inl ?_⟩⟩
          show count + 1 ≠ field_num
          omega
    · have hnext := find_delimited hl hc hw hx
      have hxne : x ≠ [] := by
        rintro rfl
        exact hhead rfl
      simp only [List.length_append, List.length_cons] at hlen hrounds
      have hne : int32 (front ++ List.replicate k c ++ x).length ≠ -1 := by
        refine int32_ne_neg_one ?_
        simp only [List.length_append, List.length_replicate]
        omega
      rw [hnext, runsOf_delimited hx hxne]
      cases d with
      | zero =>
        rw [if_neg (by omega)]
        refine ⟨_, rfl, fun y hy => ?_, fun hmiss => by cases hmiss⟩
        cases hy
        refine ⟨hxne, _, c :: v, hw, by dsimp only, ?_, ?_⟩
        · rw [if_neg (List.cons_ne_nil c v)]
        · show count + 1 = field_num
          omega
      | succ d =>
        rw [if_pos ⟨by omega, hne⟩]
        have hall : l = (front ++ List.replicate k c ++ x ++ [c]) ++ v := by
          rw [hw]
          simp
        have hpast : (front ++ List.replicate k c ++ x ++ [c]).length = front.length + k + x.length + 1 := by
          simp only [List.length_append, List.length_replicate, List.length_singleton]
        rw [int32_behind _ c]
        obtain ⟨hnow, hlater⟩ := hnear.behind hx hxne
        rw [← hpast] at hnow hlater
        exact ih hall hnow hlater (by omega) (by omega) (by omega)

section

variable (fresh : Nat → UInt8) (hl : ∀ b ∈ l, b ≠ 0) (hc : c ≠ 0) (hn : n < 2 ^ 31)
  (hdelim : ∀ y z, l = y ++ c :: z → (runsOf c y).length ≤ n → y.length + 1 < 2 ^ 31)

include hl hc hn hdelim

theorem Shows.section_yields (h : Shows s l) (hfew : l.length + 16 < 2 ^ 32) :
    Yields (sectionChar fresh c n false) s ((runsOf c l)[n]?.getD []) := by
  have hmem := h.length_lt
  obtain ⟨field, hrun, hfound, hmiss⟩ := @fieldLoop_skip s l [] l c (s.memory.length + 1) n (-1) (int32 n) h hl hfew hc
    rfl (by decide) (fun y z hw hruns => by rw [List.length_nil, Nat.zero_add]; exact hdelim y z hw hruns) (by omega)
    (Int.le_refl _) (by rw [int32_of_lt hn]; omega) (by rw [int32_of_lt hn]; omega)
  cases hx : (runsOf c l)[n]? with
  | none =>
    obtain ⟨hstop, hwhere⟩ := hmiss hx
    exact sectionChar_missing fresh h hfew hrun hstop hwhere
  | some x =>
    obtain ⟨hne, Q, v, hw, hstart, hstop, hcount⟩ := hfound x hx
    have hyields := sectionChar_found fresh h hl hfew hw hrun hstart hstop fun _ => hcount
    rwa [if_neg hne] at hyields

/-- Runs are numbered from the first, whatever delimiters stand between them. Memory that ends with the terminator
gives the same answer, so that nothing behind it is read. -/
theorem sectionChar_runs (h : Stores s l) : Yields (sectionChar fresh c n false) s ((runsOf c l)[n]?.getD []) ∧
    Yields (sectionChar fresh c n false) (s.withBuffer (l ++ [0])) ((runsOf c l)[n]?.getD []) :=
  ⟨h.toHolds.shows.section_yields fresh hl hc hn hdelim h.length_lt,
    h.toHolds.shows.clipped.section_yields fresh hl hc hn hdelim h.length_lt⟩

end

theorem sectionChar_runs_columns : ∃ s, Stores s (bytes "  eth0:   10  7") ∧
    Yields (sectionChar (fun _ => 7) 32 1 false) s (bytes "10") := by
  obtain ⟨s, -, h⟩ := create_copy (fun _ => 7) empty (by decide : (bytes "  eth0:   10  7").length + 16 < 2 ^ 32)
  have hfar : ∀ y z, bytes "  eth0:   10  7" = y ++ 32 :: z → (runsOf 32 y).length ≤ 1 → y.length + 1 < 2 ^ 31 := by
    intro y z hw _
    have hlen := congrArg List.length hw
    rw [List.length_append, show (bytes "  eth0:   10  7").length = 15 from rfl] at hlen
    omega
  exact ⟨s, h, (sectionChar_runs (fun _ => 7) (by decide) (by decide) (by decide : 1 < 2 ^ 31) hfar h).1⟩

/-- Behind a delimiter at index 2³¹ − 1 the loop reads in front of the buffer. -/
theorem Shows.skipLoop_fault (h : Shows s l) {rounds : Nat} (hw : l = front ++ (List.replicate k c ++ w))
    (hend : front.length + k = 2 ^ 31) (hrounds : k < rounds) :
    skipLoop c rounds (int32 (front.length - 1)) s = (.error .fault, s) := by
  induction rounds generalizing front k with
  | zero => exact absurd hrounds (Nat.not_lt_zero _)
  | succ rounds ih =>
    have hle : front.length ≤ l.length := by
      rw [hw, List.length_append]
      omega
    cases k with
    | zero =>
      have hend : front.length = 2 ^ 31 := hend
      rw [skipLoop, int32_sub_one]
      exact bind_error (readAt_neg (int32_neg (by omega) (by omega)) s)
    | succ k =>
      obtain ⟨hchar, hall⟩ := replicate_front hw
      have hlen : (front ++ [c]).length = front.length + 1 := List.length_append
      rw [skipLoop, int32_sub_one, bind_ok (h.readAt_eq hle (by omega)), if_pos hchar, int32_behind front c]
      exact ih hall (by omega) (by omega)

/-- 2³¹ delimiters. -/
theorem not_sectionChar_runs : ¬∀ (s : Str) (l : Bytes) (c : UInt8) (n : Nat) (fresh : Nat → UInt8), Stores s l →
    (∀ b ∈ l, b ≠ 0) → c ≠ 0 → n < 2 ^ 31 → Yields (sectionChar fresh c n false) s ((runsOf c l)[n]?.getD []) := by
  intro hall
  obtain ⟨l, s, hlen, hall32, h⟩ := exists_long 32 [] (by decide)
  rw [List.append_nil] at h
  obtain ⟨t, ht, -⟩ := hall s l 32 0 (fun _ => 7) h (fun b hb => by rw [hall32 b hb]; decide) (by decide) (by decide)
  have hmem := h.toHolds.shows.length_lt
  have hl : l = List.replicate l.length 32 := List.eq_replicate_iff.mpr ⟨rfl, hall32⟩
  have hskip : skip 32 false (-1) s = (.error .fault, s) := by
    rw [skip, if_neg (by decide), get_bind]
    exact @Shows.skipLoop_fault s l [] [] 32 l.length h.toHolds.shows (s.memory.length + 1)
      (by rw [List.append_nil]; exact hl) (by rw [List.length_nil, Nat.zero_add, hlen]) (by omega)
  have hfault : sectionChar (fun _ => 7) 32 0 false s = (.error .fault, s) := by
    unfold sectionChar
    rw [get_bind]
    exact bind_error (bind_error hskip)
  rw [hfault] at ht
  cases ht

end Str

end Srl
