import Srl.BytesCut
import Srl.DictionaryMap
import Srl.DictionaryStrings

namespace Srl

open Bytes KeyedList Dictionary

namespace HttpHeaders

inductive Stop
  | PermissionDeniedException (message : String)
  | dictionary (e : DictException)
  | endless

def MAX_HEADERS : UInt32 := 200

/-- The headers, and the variables of `parse` that keep the last one. -/
structure Parsing where
  fields : Dictionary Bytes Bytes
  name : Bytes
  value : Bytes

/-- What `readUntil(line, '\n')` appends to an empty line: the text of the stream up to its next line feed, or
nothing when the time runs out; and the rest of the stream. -/
def readUntil (stream : Bytes) : Bytes × Bytes :=
  match stream.findIdx? (· = 10) with
  | some i => (stream.take (i + 1), stream.drop (i + 1))
  | none => ([], stream)

/-- A line of a multiline header. -/
def continueHeader (s : Parsing) (line : Bytes) : Option Parsing := do
  let text ← line.betweenChars 58 13
  let value := s.value ++ [32] ++ text.trimEnd
  let fields ← s.fields.assign s.name value
  some ⟨fields, s.name, value⟩

def startHeader (s : Parsing) (line : Bytes) : Option (Except Stop Parsing) := do
  let text ← line.betweenChars 58 13
  let value := text.trim
  let name := (line.«section» 58 0).toLower
  if ← s.fields.hasKey name then some (.ok ⟨s.fields, name, value⟩)
  else
    match ← s.fields.add name value with
    | .error e => some (.error (.dictionary e))
    | .ok fields =>
      if MAX_HEADERS ≤ fields.size then
        some (.error (.PermissionDeniedException "the maximum allowed header count has been reached"))
      else some (.ok ⟨fields, name, value⟩)

/-- One round of `parse`. -/
def parseLine (s : Parsing) (line : Bytes) : Option (Except Stop Parsing) :=
  if s.name ≠ [] ∧ (line.charAt 0 = 32 ∨ line.charAt 0 = 9) then (continueHeader s line).map .ok
  else if 0 < position (line.find 58 0) then startHeader s line
  else some (.ok s)

def parseLoop : Nat → Parsing → Bytes → Option (Except Stop Parsing)
  | 0, _, _ => some (.error .endless)
  | fuel + 1, s, stream =>
    let line := (readUntil stream).1
    if line = [] ∨ line.same (bytes "\r\n") then some (.ok s)
    else
      match parseLine s line with
      | none => none
      | some (.error e) => some (.error e)
      | some (.ok s) => parseLoop fuel s (readUntil stream).2

/-- `HttpHeaders::parse`; every round of the loop takes something from the stream. -/
def parse (fields : Dictionary Bytes Bytes) (stream : Bytes) : Option (Except Stop Parsing) := do
  let fields ← fields.clear
  parseLoop (stream.length + 1) ⟨fields, [], []⟩ stream

/-- Text within a line. -/
def Inline (s : Bytes) : Prop := ∀ c ∈ s, c ≠ 13 ∧ c ≠ 10 ∧ c ≠ 0

instance (s : Bytes) : Decidable (Inline s) := by unfold Inline; infer_instance

/-- A header as it stands in a block, with the lines that continue it. -/
structure Header where
  name : Bytes
  value : Bytes
  continuations : List Bytes
  name_filled : name ≠ []
  name_plain : Inline name ∧ 58 ∉ name ∧ name.head? ≠ some 32 ∧ name.head? ≠ some 9
  value_plain : Inline value
  continuations_plain : ∀ l ∈ continuations, Inline l ∧ (l.head? = some 32 ∨ l.head? = some 9)

namespace Header

/-- The lower-cased name, under which the value is stored. -/
def key (h : Header) : Bytes := h.name.toLower

def lines (h : Header) : List Bytes := (h.name ++ 58 :: h.value) :: h.continuations

/-- The value on one line, with what `cut` makes of its continuation lines. -/
def unfolded (cut : Bytes → Bytes) (h : Header) : Bytes := h.value.trim ++ h.continuations.flatMap fun l => 32 :: cut l

end Header

/-- A block of headers and the empty line that ends it. -/
def block (hs : List Header) : Bytes := (hs.flatMap Header.lines).flatMap (· ++ bytes "\r\n") ++ bytes "\r\n"

/-- What the parser takes from a continuation line: the text behind its first colon. -/
def colonText (l : Bytes) : Bytes := trimEnd ((l.dropWhile (· ≠ 58)).drop 1)

variable {s : Parsing} {m : List (Bytes × Bytes)} {l u rest : Bytes} {fuel : Nat} {h : Header} {hs : List Header}

theorem readUntil_line (hu : Inline u) : readUntil (u ++ bytes "\r\n" ++ rest) = (u ++ bytes "\r\n", rest) := by
  have hidx : (u ++ bytes "\r\n" ++ rest).findIdx? (· = 10) = some (u.length + 1) := by
    have hcrlf : (13 :: 10 :: rest).findIdx? (· = 10) = some 1 := by simp [List.findIdx?_cons]
    rw [List.append_assoc, List.findIdx?_append, List.findIdx?_eq_none_iff.mpr fun c hc => by simp [(hu c hc).2.1]]
    rw [show bytes "\r\n" ++ rest = 13 :: 10 :: rest from rfl, hcrlf, Option.map_some, Nat.add_comm]
    rfl
  have hlen : u.length + 1 + 1 = (u ++ bytes "\r\n").length := by
    rw [List.length_append]
    rfl
  rw [readUntil, hidx]
  dsimp only
  rw [hlen, List.take_left, List.drop_left]

theorem parseLoop_line (hu : Inline u) (hne : u ≠ []) : parseLoop (fuel + 1) s (u ++ bytes "\r\n" ++ rest) =
    match parseLine s (u ++ bytes "\r\n") with
    | none => none
    | some (.error e) => some (.error e)
    | some (.ok s) => parseLoop fuel s rest := by
  obtain ⟨c, cs, rfl⟩ := List.exists_cons_of_ne_nil hne
  have hsame : same (c :: cs ++ bytes "\r\n") (bytes "\r\n") = false := by
    have h0 : ∀ x ∈ c :: cs ++ bytes "\r\n", x ≠ 0 := by
      intro x hx
      rcases List.mem_append.mp hx with hx | hx
      · exact (hu x hx).2.2
      · exact (by decide : ∀ x ∈ bytes "\r\n", x ≠ 0) x hx
    rw [same, cstr_of_ne h0]
    refine decide_eq_false fun heq => (hu c List.mem_cons_self).1 ?_
    exact (List.cons.inj heq).1
  rw [parseLoop, readUntil_line hu]
  dsimp only
  rw [hsame, if_neg (by simp)]

theorem parseLoop_end : parseLoop (fuel + 1) s (bytes "\r\n" ++ rest) = some (.ok s) := by
  rw [parseLoop, show bytes "\r\n" ++ rest = [] ++ bytes "\r\n" ++ rest from rfl,
    readUntil_line (u := []) fun c hc => absurd hc List.not_mem_nil]
  exact if_pos (.inr rfl)

theorem crlf_blank : ∀ c ∈ bytes "\r\n", Str.blank c = true := by decide

/-- The text from a colon to the end of its line. -/
theorem betweenChars_line {a v : Bytes} (ha : Inline a) (hcolon : 58 ∉ a) (hv : Inline v) :
    ∃ text, (a ++ 58 :: v ++ bytes "\r\n").betweenChars 58 13 = some text ∧ text.trimEnd = trimEnd v ∧
      text.trim = trim v := by
  have hs : a ++ 58 :: v ++ bytes "\r\n" = a ++ 58 :: (v ++ 13 :: bytes "\n") := by
    rw [List.append_assoc]
    rfl
  refine ⟨_, betweenChars_eq hs (by decide) (by decide) (fun x hx => ⟨fun he => hcolon (he ▸ hx), (ha x hx).2.2⟩)
    fun x hx => ⟨(hv x hx).1, (hv x hx).2.2⟩, ?_, ?_⟩
  · split
    next hnil => rw [hnil, trimEnd_nil]; exact trimEnd_blanks crlf_blank
    next => rfl
  · split
    next hnil => rw [hnil]; exact trim_blanks crlf_blank
    next => rfl

theorem colonText_of_not_mem (h : 58 ∉ l) : colonText l = [] := by
  have hdrop : l.dropWhile (· ≠ 58) = [] :=
    List.dropWhile_eq_nil_iff.mpr fun c hc => decide_eq_true fun he => h (he ▸ hc)
  rw [colonText, hdrop]
  rfl

theorem colonText_append {a v : Bytes} (ha : 58 ∉ a) : colonText (a ++ 58 :: v) = trimEnd v := by
  have hdrop : (a ++ 58 :: v).dropWhile (· ≠ 58) = 58 :: v := by
    rw [List.dropWhile_append_of_pos fun c hc => by simpa using fun he : c = 58 => ha (he ▸ hc)]
    simp
  rw [colonText, hdrop]
  rfl

/-- What `parse` keeps of a continuation line. -/
theorem betweenChars_continuation (hl : Inline l) :
    ∃ text, (l ++ bytes "\r\n").betweenChars 58 13 = some text ∧ text.trimEnd = colonText l := by
  by_cases hmem : 58 ∈ l
  · obtain ⟨a, v, rfl, ha⟩ := List.eq_append_cons_of_mem hmem
    obtain ⟨text, htext, hend, -⟩ := betweenChars_line (fun c hc => hl c (List.mem_append_left _ hc)) ha fun c hc =>
      hl c (List.mem_append_right _ (List.mem_cons_of_mem _ hc))
    exact ⟨text, htext, hend.trans (colonText_append ha).symm⟩
  · refine ⟨[], betweenChars_none ?_ (by decide), by rw [trimEnd_nil, colonText_of_not_mem hmem]⟩
    intro hc
    rcases List.mem_append.mp hc with hc | hc
    · exact hmem hc
    · exact absurd hc (by decide)

/-- The bindings when the first line of a header was read. -/
def opened (m : List (Bytes × Bytes)) (h : Header) : List (Bytes × Bytes) :=
  if has Hasher.hash m (Hasher.hash h.key) then m else m ++ [(h.key, h.value.trim)]

/-- The bindings when all lines of a header were read. -/
def put (m : List (Bytes × Bytes)) (h : Header) : List (Bytes × Bytes) :=
  if h.continuations = [] then opened m h else KeyedList.assign Hasher.hash (opened m h) h.key (h.unfolded colonText)

theorem key_ne_nil (h : Header) : h.key ≠ [] := fun hk => h.name_filled (List.map_eq_nil_iff.mp hk)

theorem has_opened : has Hasher.hash (opened m h) (Hasher.hash h.key) = true := by
  unfold opened
  split
  next hhas => exact hhas
  next => rw [has_iff]; exact ⟨_, List.mem_append_right _ List.mem_cons_self, rfl⟩

theorem parseLine_first (hd : Represents s.fields m) (hfew : m.length + 1 < 200) (h : Header) :
    ∃ s', parseLine s (h.name ++ 58 :: h.value ++ bytes "\r\n") = some (.ok s') ∧ s'.name = h.key ∧
      s'.value = h.value.trim ∧ Represents s'.fields (opened m h) := by
  obtain ⟨hinline, hcolon, h32, h9⟩ := h.name_plain
  obtain ⟨text, htext, -, htrim⟩ := betweenChars_line hinline hcolon h.value_plain
  have hsplit : h.name ++ 58 :: h.value ++ bytes "\r\n" = h.name ++ 58 :: (h.value ++ bytes "\r\n") := by
    rw [List.append_assoc]
    rfl
  have hname : ∀ x ∈ h.name, x ≠ 58 ∧ x ≠ 0 := fun x hx => ⟨fun he => hcolon (he ▸ hx), (hinline x hx).2.2⟩
  have hsection := section_first hsplit (by decide) hname h.name_filled
  have hfind : (h.name ++ 58 :: h.value ++ bytes "\r\n").find 58 0 = some h.name.length := by
    rw [find_eq (by rw [List.drop_zero]; exact hsplit) (by decide) hname, Nat.zero_add]
  have hpos : 0 < position ((h.name ++ 58 :: h.value ++ bytes "\r\n").find 58 0) := by
    have := List.length_pos_of_ne_nil h.name_filled
    rw [hfind, position_some]
    omega
  have hhead : ¬((h.name ++ 58 :: h.value ++ bytes "\r\n").charAt 0 = 32 ∨
      (h.name ++ 58 :: h.value ++ bytes "\r\n").charAt 0 = 9) := by
    obtain ⟨c, cs, hc⟩ := List.exists_cons_of_ne_nil h.name_filled
    rw [hc] at h32 h9 ⊢
    exact fun hor => hor.elim (fun he => h32 (congrArg some he)) fun he => h9 (congrArg some he)
  have hkey := hasKey_spec hd h.key
  have hadd := add_spec hd h.key h.value.trim
  rw [parseLine, if_neg fun hand => hhead hand.2, if_pos hpos, startHeader, htext, hsection]
  dsimp only [Option.bind_eq_bind, Option.bind_some]
  rw [htrim]
  show ∃ s', (s.fields.hasKey h.key).bind _ = _ ∧ _
  rw [hkey, Option.bind_some, opened]
  by_cases hhas : has Hasher.hash m (Hasher.hash h.key) = true
  · rw [if_pos hhas, if_pos hhas]
    exact ⟨_, rfl, rfl, rfl, hd⟩
  · rw [if_neg hhas] at hadd ⊢
    obtain ⟨fields, hrun, hfields⟩ := hadd
    rw [if_neg hhas]
    have hsize : ¬MAX_HEADERS ≤ fields.size := by
      rw [size_spec hfields, UInt32.le_iff_toNat_le, UInt32.toNat_ofNat_of_lt' (by
        rw [List.length_append, List.length_singleton]
        show _ < 2 ^ 32
        omega)]
      rw [List.length_append, List.length_singleton]
      show ¬200 ≤ _
      omega
    refine ⟨⟨fields, h.key, h.value.trim⟩, ?_, rfl, rfl, hfields⟩
    show (s.fields.add h.key h.value.trim).bind _ = _
    rw [hrun, Option.bind_some]
    exact if_neg hsize

theorem parseLine_continuation (hd : Represents s.fields m) (hname : s.name ≠ []) (hl : Inline l)
    (hhead : l.head? = some 32 ∨ l.head? = some 9) :
    ∃ s', parseLine s (l ++ bytes "\r\n") = some (.ok s') ∧ s'.name = s.name ∧
      s'.value = s.value ++ 32 :: colonText l ∧ Represents s'.fields
        (KeyedList.assign Hasher.hash m s.name s'.value) := by
  obtain ⟨text, htext, hcolon⟩ := betweenChars_continuation hl
  have hchar : (l ++ bytes "\r\n").charAt 0 = 32 ∨ (l ++ bytes "\r\n").charAt 0 = 9 := by
    cases l with
    | nil => rcases hhead with h | h <;> cases h
    | cons c l => exact hhead.imp Option.some.inj Option.some.inj
  obtain ⟨fields, hrun, hfields⟩ := assign_spec hd s.name (s.value ++ 32 :: colonText l)
  refine ⟨⟨fields, s.name, s.value ++ 32 :: colonText l⟩, ?_, rfl, rfl, hfields⟩
  rw [parseLine, if_pos ⟨hname, hchar⟩, continueHeader, htext]
  dsimp only [Option.bind_eq_bind, Option.bind_some]
  rw [hcolon, List.append_assoc]
  show ((s.fields.assign s.name (s.value ++ 32 :: colonText l)).bind _).map _ = _
  rw [hrun]
  rfl

/-- The lines that continue a header, one after the other. -/
theorem parseLoop_continuations {ls : List Bytes} (hd : Represents s.fields m) (hname : s.name ≠ [])
    (hhas : has Hasher.hash m (Hasher.hash s.name) = true)
    (hls : ∀ l ∈ ls, Inline l ∧ (l.head? = some 32 ∨ l.head? = some 9)) :
    ∃ s', parseLoop (fuel + ls.length) s (ls.flatMap (· ++ bytes "\r\n") ++ rest) = parseLoop fuel s' rest ∧
      s'.name = s.name ∧ s'.value = s.value ++ ls.flatMap (fun l => 32 :: colonText l) ∧
      Represents s'.fields (if ls = [] then m else KeyedList.assign Hasher.hash m s.name s'.value) := by
  induction ls generalizing s m with
  | nil => exact ⟨s, rfl, rfl, (List.append_nil _).symm, hd⟩
  | cons l ls ih =>
    obtain ⟨hinline, hhead⟩ := hls l List.mem_cons_self
    obtain ⟨s₁, hline, hname₁, hvalue₁, hd₁⟩ := parseLine_continuation hd hname hinline hhead
    have hhas₁ : has Hasher.hash (KeyedList.assign Hasher.hash m s.name s₁.value) (Hasher.hash s₁.name) = true := by
      rw [hname₁]
      exact has_assign
    obtain ⟨s', hrun, hname', hvalue', hd'⟩ := ih hd₁ (hname₁ ▸ hname) hhas₁ fun l' hl' =>
      hls l' (List.mem_cons_of_mem l hl')
    have hne : l ≠ [] := by
      rintro rfl
      rcases hhead with h | h <;> cases h
    refine ⟨s', ?_, hname'.trans hname₁, ?_, ?_⟩
    · rw [List.flatMap_cons, List.append_assoc, List.length_cons, ← Nat.add_assoc, parseLoop_line hinline hne, hline]
      exact hrun
    · rw [hvalue', hvalue₁, List.flatMap_cons, List.append_assoc]
    · rw [if_neg (List.cons_ne_nil l ls)]
      split at hd'
      next hnil =>
        rw [hnil, List.flatMap_nil, List.append_nil] at hvalue'
        rw [hvalue']
        exact hd'
      next =>
        rw [hname₁, assign_assign hhas] at hd'
        exact hd'

/-- A header with all its lines. -/
theorem parseLoop_header (hd : Represents s.fields m) (hfew : m.length + 1 < 200) (h : Header) :
    ∃ s', parseLoop (fuel + h.lines.length) s (h.lines.flatMap (· ++ bytes "\r\n") ++ rest) = parseLoop fuel s' rest ∧
      Represents s'.fields (put m h) := by
  obtain ⟨s₁, hline, hname, hvalue, hd₁⟩ := parseLine_first hd hfew h
  obtain ⟨s', hrun, hname', hvalue', hd'⟩ := @parseLoop_continuations s₁ _ rest fuel _ hd₁ (hname ▸ key_ne_nil h)
    (hname ▸ has_opened) h.continuations_plain
  have hinline : Inline (h.name ++ 58 :: h.value) := by
    intro c hc
    rcases List.mem_append.mp hc with hc | hc
    · exact h.name_plain.1 c hc
    · rcases List.mem_cons.mp hc with rfl | hc
      · decide
      · exact h.value_plain c hc
  refine ⟨s', ?_, ?_⟩
  · rw [Header.lines, List.flatMap_cons, List.append_assoc, List.length_cons, ← Nat.add_assoc,
      parseLoop_line hinline (by simp), hline]
    exact hrun
  · rw [hname, hvalue', hvalue] at hd'
    exact hd'

theorem length_put_le (m : List (Bytes × Bytes)) (h : Header) : (put m h).length ≤ m.length + 1 := by
  have hopened : (opened m h).length ≤ m.length + 1 := by
    unfold opened
    split
    next => exact Nat.le_succ _
    next => rw [List.length_append, List.length_singleton]
  unfold put
  split
  next => exact hopened
  next => rw [KeyedList.assign, if_pos has_opened, List.length_map]; exact hopened

/-- A block of headers. -/
theorem parseLoop_headers (hd : Represents s.fields m) (hfew : m.length + hs.length < 200) :
    ∃ s', parseLoop (fuel + (hs.flatMap Header.lines).length) s
      ((hs.flatMap Header.lines).flatMap (· ++ bytes "\r\n") ++ rest) =
        parseLoop fuel s' rest ∧ Represents s'.fields (hs.foldl put m) := by
  induction hs generalizing s m with
  | nil => exact ⟨s, rfl, hd⟩
  | cons h hs ih =>
    rw [List.length_cons] at hfew
    have hlen := length_put_le m h
    obtain ⟨s₁, hrun₁, hd₁⟩ := @parseLoop_header s m ((hs.flatMap Header.lines).flatMap (· ++ bytes "\r\n") ++ rest)
      (fuel + (hs.flatMap Header.lines).length) hd (by omega) h
    obtain ⟨s', hrun, hd'⟩ := ih hd₁ (by omega)
    refine ⟨s', ?_, hd'⟩
    rw [List.flatMap_cons, List.flatMap_append, List.append_assoc, List.length_append, Nat.add_comm h.lines.length,
      ← Nat.add_assoc, hrun₁, hrun]

theorem parse_block {d : Dictionary Bytes Bytes} (hd : Represents d m) (hfew : hs.length < 200) (rest : Bytes) :
    ∃ s, parse d (block hs ++ rest) = some (.ok s) ∧ Represents s.fields (hs.foldl put []) := by
  obtain ⟨fields, hclear, hfields⟩ := clear_spec hd
  have hlines : (hs.flatMap Header.lines).length ≤ (block hs ++ rest).length := by
    have hle : ∀ ls : List Bytes, ls.length ≤ (ls.flatMap (· ++ bytes "\r\n")).length := by
      intro ls
      induction ls with
      | nil => exact Nat.le_refl 0
      | cons l ls ih =>
        rw [List.flatMap_cons, List.length_append, List.length_append, List.length_cons]
        have : (bytes "\r\n").length = 2 := rfl
        omega
    have := hle (hs.flatMap Header.lines)
    rw [block, List.length_append, List.length_append]
    omega
  obtain ⟨n, hn⟩ : ∃ n, (block hs ++ rest).length + 1 = n + 1 + (hs.flatMap Header.lines).length :=
    ⟨(block hs ++ rest).length - (hs.flatMap Header.lines).length, by omega⟩
  obtain ⟨s', hrun, hd'⟩ := @parseLoop_headers ⟨fields, [], []⟩ [] (bytes "\r\n" ++ rest) (n + 1) hs hfields
    (by simpa using hfew)
  refine ⟨s', ?_, hd'⟩
  rw [parse, hclear]
  show parseLoop ((block hs ++ rest).length + 1) ⟨fields, [], []⟩ (block hs ++ rest) = _
  rw [hn, block, List.append_assoc]
  rw [hrun, parseLoop_end]

end HttpHeaders

end Srl
