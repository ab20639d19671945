import Srl.HttpRequestLine
import Srl.HttpResponse

namespace Srl

open Bytes KeyedList Dictionary

namespace Bytes

theorem IsDigit.decimal {c : UInt8} (h : IsDigit 10 c) : 48 ≤ c ∧ c ≤ 57 := by
  obtain ⟨n, hn, hdigit⟩ := h
  unfold digit at hdigit
  split at hdigit
  next hc => exact hc
  next =>
    split at hdigit
    next hc =>
      have := UInt8.le_iff_toNat_le.mp hc.1
      simp only [UInt8.reduceToNat] at this
      cases Option.some.inj hdigit
      omega
    next =>
      split at hdigit
      next hc =>
        have := UInt8.le_iff_toNat_le.mp hc.1
        simp only [UInt8.reduceToNat] at this
        cases Option.some.inj hdigit
        omega
      next => cases hdigit

/-- The digits of a number, and the number. -/
theorem valUInt32_decimal (num : UInt32) : valUInt32 num 10 ≠ [] ∧ (∀ c ∈ valUInt32 num 10, 48 ≤ c ∧ c ≤ 57) ∧
    HttpRequest.value (valUInt32 num 10) = num.toNat := by
  obtain ⟨ds, hne, hds, hnumber, hval⟩ := valUInt32_spec 10 (by decide) num
  rw [hval]
  exact ⟨hne, fun c hc => (hds c hc).1.decimal, hnumber⟩

theorem length_valUInt32 (num : UInt32) : (valUInt32 num 10).length ≤ 10 := by
  have hlt := num.toNat_lt
  have hle := @length_numeral_le 10 10 (by decide) 33 num.toNat [] (by omega)
  rw [valUInt32, if_neg (by decide), valLoop_eq]
  exact hle

end Bytes

namespace HttpHeaders

variable {u rest : Bytes} {ls : List Bytes} {fuel : Nat} {m : List (Bytes × Bytes)} {hs : List Header}

theorem inline_digit {c : UInt8} (h : 48 ≤ c) : c ≠ 13 ∧ c ≠ 10 ∧ c ≠ 0 := by
  have hne : ∀ d : UInt8, d < 48 → c ≠ d := by
    intro d hd he
    rw [he] at h
    exact UInt8.lt_irrefl d (UInt8.lt_of_lt_of_le hd h)
  exact ⟨hne 13 (by decide), hne 10 (by decide), hne 0 (by decide)⟩

theorem inline_append {s t : Bytes} (hs : Inline s) (ht : Inline t) : Inline (s ++ t) := by
  intro c hc
  obtain hc | hc := List.mem_append.mp hc
  · exact hs c hc
  · exact ht c hc

theorem cstr_inline {s : Bytes} (hs : Inline s) : cstr s = s := cstr_of_ne fun c hc => (hs c hc).2.2

theorem inline_valUInt32 (num : UInt32) : Inline (valUInt32 num 10) := fun c hc =>
  inline_digit ((valUInt32_decimal num).2.1 c hc).1

theorem line_same (hu : Inline u) (hne : u ≠ []) : same (u ++ bytes "\r\n") (bytes "\r\n") = false := by
  obtain ⟨c, cs, rfl⟩ := List.exists_cons_of_ne_nil hne
  have hzero : ∀ x ∈ c :: cs ++ bytes "\r\n", x ≠ 0 := by
    intro x hx
    obtain hx | hx := List.mem_append.mp hx
    · exact (hu x hx).2.2
    · exact (by decide : ∀ x ∈ bytes "\r\n", x ≠ 0) x hx
  rw [same, cstr_of_ne hzero]
  apply decide_eq_false
  intro heq
  exact (hu c List.mem_cons_self).1 (List.cons.inj heq).1

/-- The lines in front of an empty one are passed over. -/
theorem behind_lines (hls : ∀ u ∈ ls, Inline u ∧ u ≠ []) :
    behind (fuel + 1 + ls.length) (ls.flatMap (· ++ bytes "\r\n") ++ (bytes "\r\n" ++ rest)) = rest := by
  induction ls with
  | nil =>
    have hread : readUntil ([] ++ bytes "\r\n" ++ rest) = ([] ++ bytes "\r\n", rest) :=
      readUntil_line fun c hc => absurd hc List.not_mem_nil
    rw [List.flatMap_nil, List.nil_append, List.length_nil, Nat.add_zero, behind]
    rw [List.nil_append] at hread
    rw [hread]
    exact if_pos (Or.inr rfl)
  | cons u ls ih =>
    obtain ⟨hu, hne⟩ := hls u List.mem_cons_self
    have hread := @readUntil_line u (ls.flatMap (· ++ bytes "\r\n") ++ (bytes "\r\n" ++ rest)) hu
    rw [List.flatMap_cons, List.append_assoc, List.length_cons, ← Nat.add_assoc, behind, hread]
    dsimp only
    rw [line_same hu hne, if_neg (by simp [hne])]
    exact ih fun v hv => hls v (List.mem_cons_of_mem u hv)

theorem Header.inline_lines (h : Header) : ∀ u ∈ h.lines, Inline u ∧ u ≠ [] := by
  intro u hu
  obtain rfl | hu := List.mem_cons.mp hu
  · refine ⟨?_, by simp⟩
    intro c hc
    obtain hc | hc := List.mem_append.mp hc
    · exact h.name_plain.1 c hc
    · obtain rfl | hc := List.mem_cons.mp hc
      · decide
      · exact h.value_plain c hc
  · obtain ⟨hinline, hhead⟩ := h.continuations_plain u hu
    refine ⟨hinline, ?_⟩
    intro hnil
    rw [hnil] at hhead
    obtain hhead | hhead := hhead <;> cases hhead

/-- The lines of a block are no longer than its text. -/
theorem length_lines_le (ls : List Bytes) : ls.length ≤ (ls.flatMap (· ++ bytes "\r\n")).length := by
  induction ls with
  | nil => exact Nat.le_refl 0
  | cons l ls ih =>
    rw [List.flatMap_cons, List.length_append, List.length_append, List.length_cons]
    have : (bytes "\r\n").length = 2 := rfl
    omega

theorem behind_block (hs : List Header) (rest : Bytes) :
    behind ((block hs ++ rest).length + 1) (block hs ++ rest) = rest := by
  have hle := length_lines_le (hs.flatMap Header.lines)
  obtain ⟨n, hn⟩ : ∃ n, (block hs ++ rest).length + 1 = n + 1 + (hs.flatMap Header.lines).length := by
    refine ⟨(block hs ++ rest).length - (hs.flatMap Header.lines).length, ?_⟩
    have hlen : (block hs ++ rest).length =
        ((hs.flatMap Header.lines).flatMap (· ++ bytes "\r\n")).length + 2 + rest.length := by
      rw [block, List.length_append, List.length_append]
      rfl
    omega
  rw [hn, block, List.append_assoc]
  apply behind_lines
  intro u hu
  obtain ⟨h, -, hu⟩ := List.mem_flatMap.mp hu
  exact h.inline_lines u hu

/-- A block is read whole, and what stands behind it is left. -/
theorem parseStream_block {d : Dictionary Bytes Bytes} (hd : Represents d m) (hfew : hs.length < 200) (rest : Bytes) :
    ∃ s, parseStream d (block hs ++ rest) = some (.ok (s, rest)) ∧ Represents s.fields (hs.foldl put []) := by
  obtain ⟨s, hparse, hs'⟩ := parse_block hd hfew rest
  refine ⟨s, ?_, hs'⟩
  rw [parseStream_eq, hparse, behind_block]
  rfl

/-- The binding that a header of one line makes. -/
def Header.entry (h : Header) : Bytes × Bytes := (h.key, h.value.trim)

theorem foldl_put (hline : ∀ h ∈ hs, h.continuations = [])
    (hdistinct : Distinct Hasher.hash (m ++ hs.map Header.entry)) : hs.foldl put m = m ++ hs.map Header.entry := by
  induction hs generalizing m with
  | nil => simp
  | cons h hs ih =>
    have hfresh : has Hasher.hash m (Hasher.hash h.key) = false := by
      rw [not_has_iff]
      intro p hp
      exact (List.pairwise_append.mp hdistinct).2.2 p hp h.entry List.mem_cons_self
    have hput : put m h = m ++ [h.entry] := by
      rw [put, if_pos (hline h List.mem_cons_self), opened, if_neg (by rw [hfresh]; exact Bool.false_ne_true)]
      rfl
    rw [List.foldl_cons, hput, ih fun g hg => hline g (List.mem_cons_of_mem h hg)]
    · simp
    · simpa using hdistinct

/-- Headers whose names differ are all bound. -/
theorem foldl_lines (hline : ∀ h ∈ hs, h.continuations = [])
    (hkeys : (hs.map Header.key).Pairwise fun k l => (Hasher.hash k : Int) ≠ Hasher.hash l) :
    Distinct Hasher.hash (hs.map Header.entry) ∧ hs.foldl put [] = hs.map Header.entry := by
  have hdistinct : Distinct Hasher.hash (hs.map Header.entry) := by
    unfold Distinct
    rw [List.pairwise_map] at hkeys ⊢
    exact hkeys
  refine ⟨hdistinct, ?_⟩
  rw [foldl_put hline (by rw [List.nil_append]; exact hdistinct), List.nil_append]

/-- A header of one line, with the blank behind its colon. -/
def Header.line (name value : Bytes) (hname : name ≠ [] ∧ Inline name ∧ 58 ∉ name ∧ name.head? ≠ some 32 ∧
    name.head? ≠ some 9) (hvalue : Inline value) : Header where
  name := name
  value := 32 :: value
  continuations := []
  name_filled := hname.1
  name_plain := hname.2
  value_plain := List.forall_mem_cons.mpr ⟨by decide, hvalue⟩
  continuations_plain := by simp

variable {name value : Bytes}

theorem block_nil : block [] = bytes "\r\n" := rfl

theorem block_line (hname : name ≠ [] ∧ Inline name ∧ 58 ∉ name ∧ name.head? ≠ some 32 ∧ name.head? ≠ some 9)
    (hvalue : Inline value) (hs : List Header) :
    block (.line name value hname hvalue :: hs) = name ++ (bytes ": " ++ (value ++ (bytes "\r\n" ++ block hs))) := by
  have hcolon : bytes ": " = [58, 32] := rfl
  simp only [block, Header.lines, Header.line, List.flatMap_cons, hcolon,
    List.append_assoc, List.cons_append, List.nil_append]

end HttpHeaders

end Srl
