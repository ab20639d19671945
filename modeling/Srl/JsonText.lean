import Srl.JsonTotal

namespace Srl.JSON

open IStream

variable {ν : Type} {num : Numbers ν} {fuel : Nat} {c p : UInt8} {g u rest : Bytes}

def Gap (g : Bytes) : Prop := ∀ c ∈ g, isspace c = true

/-- What may stand behind a number: nothing, space, or what ends an element. -/
def Stops (rest : Bytes) : Prop := ∀ c u, rest = c :: u → isspace c = true ∨ c = 44 ∨ c = 93 ∨ c = 125

/-- `t` is read as the number `x` wherever a number may stand. -/
structure Numbers.Reads (num : Numbers ν) (x : ν) (t : Bytes) : Prop where
  starts : ∃ c u, t = c :: u ∧ isspace c = false ∧ c ≠ 34
  extract : ∀ rest, Stops rest → num.extract (t ++ rest) = (some x, rest)

/-- The string that stands for the characters between two quotes. A character behind a backslash that is no escape,
`u` among them, keeps its backslash. -/
inductive Quoted : Bytes → Bytes → Prop where
  | nil : Quoted [] []
  | plain {c : UInt8} {s t : Bytes} (hquote : c ≠ 34) (hescape : c ≠ 92) (h : Quoted s t) : Quoted (c :: s) (c :: t)
  | escape {s t : Bytes} (c : UInt8) (h : Quoted s t) : Quoted (escaped c ++ s) (92 :: c :: t)

/-- A value, its text and the space around it. -/
structure Item (ν : Type) where
  before : Bytes
  text : Bytes
  after : Bytes
  value : Value ν

def Item.layout (x : Item ν) : Bytes := x.before ++ (x.text ++ x.after)

def Item.Spaced (x : Item ν) : Prop := Gap x.before ∧ Gap x.after

/-- A name between quotes with the space around it, and the value behind the colon. -/
structure Member (ν : Type) where
  before : Bytes
  quoted : Bytes
  after : Bytes
  key : Bytes
  item : Item ν

def Member.layout (x : Member ν) : Bytes := x.before ++ 34 :: (x.quoted ++ 34 :: (x.after ++ 58 :: x.item.layout))

structure Member.Named (x : Member ν) : Prop where
  before : Gap x.before
  quoted : Quoted x.key x.quoted
  after : Gap x.after
  item : x.item.Spaced

/-- Layouts with commas between them. -/
def joined : List Bytes → Bytes
  | [] => []
  | [t] => t
  | t :: u :: ts => t ++ 44 :: joined (u :: ts)

/-- The texts of a value. An object has at least one member; of two members with one name the second counts. -/
inductive Text (num : Numbers ν) : Value ν → Bytes → Prop where
  | number {x : ν} {t : Bytes} (h : num.Reads x t) : Text num (.number x) t
  | string {s t : Bytes} (h : Quoted s t) : Text num (.string s) (34 :: (t ++ [34]))
  | true : Text num (.bool true) (bytes "true")
  | false : Text num (.bool false) (bytes "false")
  | null : Text num .null (bytes "null")
  | empty {g : Bytes} (h : Gap g) : Text num (.array []) (91 :: (g ++ [93]))
  | array {items : List (Item ν)} (hne : items ≠ []) (hspaced : ∀ x ∈ items, x.Spaced)
      (h : ∀ x ∈ items, Text num x.value x.text) :
      Text num (.array (items.map Item.value)) (91 :: (joined (items.map Item.layout) ++ [93]))
  | object {members : List (Member ν)} (hne : members ≠ []) (hnamed : ∀ x ∈ members, x.Named)
      (h : ∀ x ∈ members, Text num x.item.value x.item.text) :
      Text num (.object (SortedMap.ofList rank (members.map fun x => (x.key, x.item.value))))
        (123 :: (joined (members.map Member.layout) ++ [125]))

theorem matchLoop_word (pattern u : Bytes) (ch : UInt8) :
    matchLoop pattern ch (ofString (pattern ++ u)) = (true, ofString u) := by
  induction pattern generalizing ch with
  | nil => rfl
  | cons p cur ih =>
    rw [matchLoop, List.cons_append, get_ofString_cons]
    exact (if_neg (by simp [ofString])).trans ((if_neg (not_not.mpr rfl)).trans (ih p))

/-- Behind space the pattern is taken. -/
theorem matchText_word (hg : Gap g) (hp : isspace p = false) (cur u : Bytes) :
    matchText (p :: cur) (ofString (g ++ (p :: cur ++ u))) = (true, ofString u) := by
  rw [matchText, List.cons_append, ws_ofString hg hp]
  exact matchLoop_word (p :: cur) u 0

/-- Where another character stands, space is taken and nothing else. -/
theorem matchText_miss (hg : Gap g) (hc : isspace c = false) (hne : c ≠ p) (cur : Bytes) :
    matchText (p :: cur) (ofString (g ++ c :: u)) = (false, ofString (c :: u)) := by
  rw [matchText, ws_ofString hg hc, matchLoop, get_ofString_cons]
  exact (if_neg (by simp [ofString])).trans (if_pos hne)

theorem stringLoop_quoted {s t : Bytes} (h : Quoted s t) (rest : Bytes) (ch : UInt8) (value : Bytes) :
    stringLoop (ofString (t ++ 34 :: rest)) ch value = (34, value ++ s, ofString rest) := by
  induction h generalizing ch value with
  | nil =>
    rw [stringLoop, List.nil_append, get_ofString_cons, List.append_nil]
    rfl
  | @plain c s t hquote hescape h ih =>
    rw [stringLoop, List.cons_append, get_ofString_cons]
    simp only [good_ofString, hquote, hescape, ↓reduceDIte, ↓reduceIte]
    rw [ih, List.append_assoc]
    rfl
  | @escape s t c h ih =>
    rw [stringLoop, List.cons_append, List.cons_append, get_ofString_cons]
    simp only [good_ofString, show ¬(92 : UInt8) = 34 by decide, get_ofString_cons, ↓reduceDIte, ↓reduceIte]
    rw [ih, List.append_assoc]

theorem parse_string_quoted {s t : Bytes} (hg : Gap g) (h : Quoted s t) (rest : Bytes) :
    parse_string (ofString (g ++ 34 :: (t ++ 34 :: rest))) = (some s, ofString rest) := by
  have hmatch := matchText_word hg (by decide : isspace 34 = false) [] (t ++ 34 :: rest)
  rw [parse_string, show bytes "\"" = [34] by decide, show 34 :: (t ++ 34 :: rest) = [34] ++ (t ++ 34 :: rest) from rfl,
    hmatch]
  dsimp only
  rw [stringLoop_quoted h]
  rfl

theorem parse_string_miss (hg : Gap g) (hc : isspace c = false) (hne : c ≠ 34) :
    parse_string (ofString (g ++ c :: u)) = (none, ofString (c :: u)) := by
  rw [parse_string, show bytes "\"" = [34] by decide, matchText_miss hg hc hne]

theorem extract_ofString (hc : isspace c = false) (u : Bytes) : extract num (ofString (c :: u)) =
    ((num.extract (c :: u)).1,
      ⟨(num.extract (c :: u)).2, (num.extract (c :: u)).2.isEmpty, (num.extract (c :: u)).1.isNone⟩) := by
  have hdrop : (c :: u).dropWhile isspace = c :: u := by
    rw [List.dropWhile_cons, hc]
    rfl
  simp only [extract, sentry, good_ofString, ↓reduceIte]
  rw [show (ofString (c :: u)).rest = c :: u from rfl, hdrop]
  rfl

theorem parse_number_reads {x : ν} {t : Bytes} (h : num.Reads x t) (hrest : Stops rest) :
    parse_number num (ofString (t ++ rest)) = (some x, { rest := rest, eof := rest.isEmpty, fail := false }) := by
  obtain ⟨c, u, rfl, hc, -⟩ := h.starts
  rw [parse_number, List.cons_append]
  have hws : (ofString (c :: (u ++ rest))).ws = ofString (c :: (u ++ rest)) :=
    ws_ofString (g := []) (by simp) hc
  rw [hws, extract_ofString hc, ← List.cons_append, h.extract rest hrest]
  rfl

theorem parse_number_miss (hc : isspace c = false) (hother : c < 48 ∨ 57 < c) (hsign : c ∉ bytes "+-.") :
    parse_number num (ofString (c :: u)) = (none, ofString (c :: u)) := by
  have hws : (ofString (c :: u)).ws = ofString (c :: u) := ws_ofString (g := []) (by simp) hc
  rw [parse_number, hws, extract_ofString hc, num.extract_other c u hc hother hsign]
  rfl

theorem matchText_miss_here (hc : isspace c = false) (hne : c ≠ p) (cur : Bytes) :
    matchText (p :: cur) (ofString (c :: u)) = (false, ofString (c :: u)) :=
  matchText_miss (g := []) (by simp [Gap]) hc hne cur

/-- A bracket or a brace is none of the simple values. -/
theorem parse_number_bracket (hc : c = 91 ∨ c = 123 ∨ c = 93) :
    parse_number num (ofString (c :: u)) = (none, ofString (c :: u)) := by
  obtain rfl | rfl | rfl := hc <;> exact parse_number_miss (by decide) (by decide) (by decide)

theorem parse_bool_bracket (hc : c = 91 ∨ c = 123 ∨ c = 93) :
    parse_bool (ofString (c :: u)) = (none, ofString (c :: u)) := by
  have hspace : isspace c = false := by obtain rfl | rfl | rfl := hc <;> decide
  have ht : c ≠ 116 := by obtain rfl | rfl | rfl := hc <;> decide
  have hf : c ≠ 102 := by obtain rfl | rfl | rfl := hc <;> decide
  rw [parse_bool, show bytes "true" = [116, 114, 117, 101] by
    decide, show bytes "false" = [102, 97, 108, 115, 101] by decide,
    matchText_miss_here hspace ht]
  dsimp only
  rw [matchText_miss_here hspace hf]

theorem parse_null_bracket (hc : c = 91 ∨ c = 123 ∨ c = 93) :
    parse_null (ofString (c :: u)) = (false, ofString (c :: u)) := by
  have hspace : isspace c = false := by obtain rfl | rfl | rfl := hc <;> decide
  have hn : c ≠ 110 := by obtain rfl | rfl | rfl := hc <;> decide
  rw [parse_null, show bytes "null" = [110, 117, 108, 108] by decide, matchText_miss_here hspace hn]

theorem parse_string_bracket (hg : Gap g) (hc : c = 91 ∨ c = 123 ∨ c = 93) :
    parse_string (ofString (g ++ c :: u)) = (none, ofString (c :: u)) := by
  obtain rfl | rfl | rfl := hc <;> exact parse_string_miss hg (by decide) (by decide)

theorem value_array (hg : Gap g) {values : List (Value ν)} {input' : IStream}
    (h : Array.parse num fuel (ofString (91 :: u)) = some (some values, input')) :
    Value.parse num (fuel + 1) (ofString (g ++ 91 :: u)) = some (some (.array values), input') := by
  have hs := parse_string_bracket (u := u) hg (Or.inl rfl)
  unfold Value.parse
  simp only [hs, parse_number_bracket (Or.inl rfl), parse_bool_bracket (Or.inl rfl),
    parse_null_bracket (Or.inl rfl), peek_ofString_cons]
  rw [h]

theorem value_object (hg : Gap g) {value_map : List (Bytes × Value ν)} {input' : IStream}
    (h : Object.parse num fuel (ofString (123 :: u)) = some (some value_map, input')) :
    Value.parse num (fuel + 2) (ofString (g ++ 123 :: u)) = some (some (.object value_map), input') := by
  have hs := parse_string_bracket (u := u) hg (Or.inr (Or.inl rfl))
  unfold Value.parse
  simp only [hs, parse_number_bracket (Or.inr (Or.inl rfl)), parse_bool_bracket (Or.inr (Or.inl rfl)),
    parse_null_bracket (Or.inr (Or.inl rfl)), peek_ofString_cons]
  show Value.parseObject num (fuel + 1) (ofString (123 :: u)) = _
  unfold Value.parseObject
  rw [h]

/-- Where a value should stand and a closing bracket does, space is taken and there is no value. -/
theorem value_none (hg : Gap g) (u : Bytes) :
    Value.parse num 3 (ofString (g ++ 93 :: u)) = some (none, ofString (93 :: u)) := by
  have hs := parse_string_bracket (u := u) hg (Or.inr (Or.inr rfl))
  unfold Value.parse
  simp only [hs, parse_number_bracket (Or.inr (Or.inr rfl)), parse_bool_bracket (Or.inr (Or.inr rfl)),
    parse_null_bracket (Or.inr (Or.inr rfl)), peek_ofString_cons]
  show Value.parseObject num 2 (ofString (93 :: u)) = _
  unfold Value.parseObject Object.parse
  rw [show bytes "\x7b" = [123] by decide, matchText_miss_here (by decide) (by decide)]

/-- A stream that stands at `rest` and is good unless nothing is left. -/
structure Left (rest : Bytes) (input : IStream) : Prop where
  stands : input.rest = rest
  sound : input.fail = false
  good : rest ≠ [] → input = ofString rest

theorem left_ofString (rest : Bytes) : Left rest (ofString rest) := ⟨rfl, rfl, fun _ => rfl⟩

/-- Wherever it stands, `t` is read as `v` and nothing behind it is touched. -/
def Parses (num : Numbers ν) (v : Value ν) (t : Bytes) : Prop :=
  ∀ g rest, Gap g → Stops rest → ∃ fuel input',
    Value.parse num fuel (ofString (g ++ (t ++ rest))) = some (some v, input') ∧ Left rest input'

theorem stops_gap (hg : Gap g) (hc : c = 44 ∨ c = 93 ∨ c = 125) (u : Bytes) : Stops (g ++ c :: u) := by
  intro d w h
  cases g with
  | nil =>
    obtain ⟨rfl, -⟩ := List.cons.inj h
    exact Or.inr hc
  | cons e g =>
    obtain ⟨rfl, -⟩ := List.cons.inj h
    exact Or.inl (hg e List.mem_cons_self)

/-- An element and its space are read up to what ends it. -/
theorem parses_item {x : Item ν} (h : Parses num x.value x.text) (hx : x.Spaced) (hc : c = 44 ∨ c = 93 ∨ c = 125)
    (u : Bytes) : ∃ fuel, Value.parse num fuel (ofString (x.layout ++ c :: u)) =
      some (some x.value, ofString (x.after ++ c :: u)) := by
  obtain ⟨fuel, input', hrun, hleft⟩ := h x.before (x.after ++ c :: u) hx.1 (stops_gap hx.2 hc u)
  refine ⟨fuel, ?_⟩
  rw [Item.layout, List.append_assoc, List.append_assoc, hrun, hleft.good (by simp)]

theorem matchText_comma (hg : Gap g) (u : Bytes) : matchText (bytes ",") (ofString (g ++ 44 :: u)) =
    (true, ofString u) :=
  matchText_word hg (by decide) [] u

theorem joined_cons {t : Bytes} {ts : List Bytes} (h : ts ≠ []) : joined (t :: ts) = t ++ 44 :: joined ts := by
  cases ts with
  | nil => contradiction
  | cons u ts => rfl

theorem arrayLoop_items {items : List (Item ν)} (hne : items ≠ []) (hspaced : ∀ x ∈ items, x.Spaced)
    (h : ∀ x ∈ items, Parses num x.value x.text) (u : Bytes) (values : List (Value ν)) :
    ∃ fuel, Array.parseLoop num fuel (ofString (joined (items.map Item.layout) ++ 93 :: u)) values =
      some (values ++ items.map Item.value, ofString (93 :: u)) := by
  induction items generalizing values with
  | nil => contradiction
  | cons x xs ih =>
    have hx := h x List.mem_cons_self
    have hsx := hspaced x List.mem_cons_self
    by_cases hxs : xs = []
    · subst hxs
      obtain ⟨fuel, hrun⟩ := parses_item hx hsx (Or.inr (Or.inl rfl)) u
      have hmiss := matchText_miss (p := 44) (u := u) hsx.2 (by decide : isspace 93 = false) (by decide) []
      refine ⟨fuel + 1, ?_⟩
      unfold Array.parseLoop
      simp only [List.map_cons, List.map_nil, joined, hrun]
      rw [show bytes "," = [44] by decide, hmiss]
    · obtain ⟨fuel, hrun⟩ := parses_item hx hsx (Or.inl rfl) (joined (xs.map Item.layout) ++ 93 :: u)
      obtain ⟨fuel', hrest⟩ := ih hxs (fun y hy => hspaced y (List.mem_cons_of_mem x hy))
        (fun y hy => h y (List.mem_cons_of_mem x hy)) (values ++ [x.value])
      refine ⟨max fuel fuel' + 1, ?_⟩
      unfold Array.parseLoop
      rw [List.map_cons, joined_cons (by simpa using hxs), List.append_assoc, List.cons_append,
        parse_stable hrun (le_max_left fuel fuel')]
      dsimp only
      rw [matchText_comma hsx.2]
      dsimp only
      rw [arrayLoop_stable hrest (le_max_right fuel fuel'), List.append_assoc]
      rfl

theorem objectLoop_members {members : List (Member ν)} (hne : members ≠ []) (hnamed : ∀ x ∈ members, x.Named)
    (h : ∀ x ∈ members, Parses num x.item.value x.item.text) (u : Bytes) (value_map : List (Bytes × Value ν)) :
    ∃ fuel, Object.parseLoop num fuel (ofString (joined (members.map Member.layout) ++ 125 :: u)) value_map =
      some (some ((members.map fun x => (x.key, x.item.value)).foldl
        (fun m b => SortedMap.put rank b.1 b.2 m) value_map),
        ofString (125 :: u)) := by
  induction members generalizing value_map with
  | nil => contradiction
  | cons x xs ih =>
    have hx := h x List.mem_cons_self
    obtain ⟨hbefore, hquoted, hafter, hsx⟩ := hnamed x List.mem_cons_self
    have hkey := parse_string_quoted hbefore hquoted
    have hcolon : ∀ w, matchText (bytes ":") (ofString (x.after ++ 58 :: w)) = (true, ofString w) := fun w =>
      matchText_word hafter (by decide) [] w
    by_cases hxs : xs = []
    · subst hxs
      obtain ⟨fuel, hrun⟩ := parses_item hx hsx (Or.inr (Or.inr rfl)) u
      have hmiss := matchText_miss (p := 44) (u := u) hsx.2 (by decide : isspace 125 = false) (by decide) []
      refine ⟨fuel + 1, ?_⟩
      unfold Object.parseLoop
      simp only [List.map_cons, List.map_nil, joined, Member.layout, List.append_assoc, List.cons_append, hkey, hcolon,
        hrun]
      rw [show bytes "," = [44] by decide, hmiss]
      rfl
    · obtain ⟨fuel, hrun⟩ := parses_item hx hsx (Or.inl rfl) (joined (xs.map Member.layout) ++ 125 :: u)
      obtain ⟨fuel', hrest⟩ := ih hxs (fun y hy => hnamed y (List.mem_cons_of_mem x hy))
        (fun y hy => h y (List.mem_cons_of_mem x hy)) (put x.key x.item.value value_map)
      refine ⟨max fuel fuel' + 1, ?_⟩
      unfold Object.parseLoop
      rw [List.map_cons, joined_cons (by simpa using hxs)]
      simp only [Member.layout, List.append_assoc, List.cons_append, hkey, hcolon,
        parse_stable hrun (le_max_left fuel fuel'), matchText_comma hsx.2]
      exact objectLoop_stable hrest (le_max_right fuel fuel')

/-- `true`, `false` and `null` are neither strings nor numbers. -/
theorem word_miss (num : Numbers ν) (hg : Gap g) (hc : c = 116 ∨ c = 102 ∨ c = 110) :
    parse_string (ofString (g ++ c :: u)) = (none, ofString (c :: u)) ∧
      parse_number num (ofString (c :: u)) = (none, ofString (c :: u)) := by
  have hc' : isspace c = false ∧ c ≠ 34 ∧ (c < 48 ∨ 57 < c) ∧ c ∉ bytes "+-." := by
    obtain rfl | rfl | rfl := hc <;> decide
  exact ⟨parse_string_miss hg hc'.1 hc'.2.1, parse_number_miss hc'.1 hc'.2.2.1 hc'.2.2.2⟩

theorem parses_true : Parses num (.bool true) (bytes "true") := by
  intro g rest hg _
  obtain ⟨hs, hn⟩ := word_miss num (u := [114, 117, 101] ++ rest) hg (Or.inl rfl)
  have hword := matchText_word (g := []) (by simp [Gap]) (by decide : isspace 116 = false) [114, 117, 101] rest
  refine ⟨1, ofString rest, ?_, left_ofString rest⟩
  unfold Value.parse parse_bool
  rw [show bytes "true" = [116, 114, 117, 101] by decide]
  simp only [List.cons_append, List.nil_append] at hs hn hword ⊢
  simp only [hs, hn, hword]

theorem parses_false : Parses num (.bool false) (bytes "false") := by
  intro g rest hg _
  obtain ⟨hs, hn⟩ := word_miss num (u := [97, 108, 115, 101] ++ rest) hg (Or.inr (Or.inl rfl))
  have hmiss := matchText_miss_here (p := 116) (u := [97, 108, 115, 101] ++ rest)
    (by decide : isspace 102 = false) (by decide)
    [114, 117, 101]
  have hword := matchText_word (g := []) (by simp [Gap]) (by decide : isspace 102 = false) [97, 108, 115, 101] rest
  refine ⟨1, ofString rest, ?_, left_ofString rest⟩
  unfold Value.parse parse_bool
  rw [show bytes "true" = [116, 114, 117, 101] by decide, show bytes "false" = [102, 97, 108, 115, 101] by decide]
  simp only [List.cons_append, List.nil_append] at hs hn hmiss hword ⊢
  simp only [hs, hn, hmiss, hword]

theorem parses_null : Parses num .null (bytes "null") := by
  intro g rest hg _
  obtain ⟨hs, hn⟩ := word_miss num (u := [117, 108, 108] ++ rest) hg (Or.inr (Or.inr rfl))
  have htrue := matchText_miss_here (p := 116) (u := [117, 108, 108] ++ rest)
    (by decide : isspace 110 = false) (by decide)
    [114, 117, 101]
  have hfalse := matchText_miss_here (p := 102) (u := [117, 108, 108] ++ rest)
    (by decide : isspace 110 = false) (by decide)
    [97, 108, 115, 101]
  have hword := matchText_word (g := []) (by simp [Gap]) (by decide : isspace 110 = false) [117, 108, 108] rest
  refine ⟨1, ofString rest, ?_, left_ofString rest⟩
  unfold Value.parse parse_bool parse_null
  rw [show bytes "true" = [116, 114, 117, 101] by decide, show bytes "false" = [102, 97, 108, 115, 101] by decide,
    show bytes "null" = [110, 117, 108, 108] by decide]
  simp only [List.cons_append, List.nil_append] at hs hn htrue hfalse hword ⊢
  simp only [hs, hn, htrue, hfalse, hword]

theorem matchText_open (p : UInt8) (hp : isspace p = false) (u : Bytes) :
    matchText [p] (ofString (p :: u)) = (true, ofString u) :=
  matchText_word (g := []) (by simp [Gap]) hp [] u

/-- An array is parsed when the loop gets to its closing bracket. -/
theorem parses_array {values : List (Value ν)} {t : Bytes} (h : ∀ rest, ∃ fuel, Array.parseLoop num fuel
    (ofString (t ++ 93 :: rest)) [] = some (values, ofString (93 :: rest))) :
      Parses num (.array values) (91 :: (t ++ [93])) := by
  intro g rest hg _
  obtain ⟨fuel, hloop⟩ := h rest
  refine ⟨fuel + 2, ofString rest, ?_, left_ofString rest⟩
  rw [show 91 :: (t ++ [93]) ++ rest = 91 :: (t ++ 93 :: rest) by simp]
  apply value_array hg
  unfold Array.parse
  simp only [show bytes "[" = [91] by decide, matchText_open 91 (by decide), hloop, show bytes "]" = [93] by decide,
    matchText_open 93 (by decide)]

theorem parses_object {value_map : List (Bytes × Value ν)} {t : Bytes} (h : ∀ rest, ∃ fuel, Object.parseLoop num fuel
    (ofString (t ++ 125 :: rest)) [] = some (some value_map, ofString (125 :: rest))) :
    Parses num (.object value_map) (123 :: (t ++ [125])) := by
  intro g rest hg _
  obtain ⟨fuel, hloop⟩ := h rest
  refine ⟨fuel + 3, ofString rest, ?_, left_ofString rest⟩
  rw [show 123 :: (t ++ [125]) ++ rest = 123 :: (t ++ 125 :: rest) by simp]
  apply value_object hg
  unfold Object.parse
  simp only [show bytes "\x7b" = [123] by decide, matchText_open 123 (by decide), hloop,
    show bytes "\x7d" = [125] by decide, matchText_open 125 (by decide)]

theorem parses_number {x : ν} {t : Bytes} (h : num.Reads x t) : Parses num (.number x) t := by
  intro g rest hg hrest
  obtain ⟨c, u, hcu, hc, hne⟩ := h.starts
  have hmiss := parse_string_miss (u := u ++ rest) hg hc hne
  rw [← List.cons_append, ← hcu] at hmiss
  refine ⟨1, ⟨rest, rest.isEmpty, false⟩, ?_, rfl, rfl, ?_⟩
  · unfold Value.parse
    simp only [hmiss, parse_number_reads h hrest]
  · intro hne
    obtain ⟨d, w, rfl⟩ := List.exists_cons_of_ne_nil hne
    rfl

theorem parses_string {s t : Bytes} (h : Quoted s t) : Parses num (.string s) (34 :: (t ++ [34])) := by
  intro g rest hg _
  refine ⟨1, ofString rest, ?_, left_ofString rest⟩
  unfold Value.parse
  simp only [List.cons_append, List.append_assoc, List.nil_append, parse_string_quoted hg h]

theorem Text.parses {v : Value ν} {t : Bytes} (h : Text num v t) : Parses num v t := by
  induction h with
  | number h => exact parses_number h
  | string h => exact parses_string h
  | true => exact parses_true
  | false => exact parses_false
  | null => exact parses_null
  | @empty g h =>
    apply parses_array
    intro rest
    refine ⟨4, ?_⟩
    unfold Array.parseLoop
    rw [value_none h]
  | array hne hspaced h ih =>
    apply parses_array
    intro rest
    exact arrayLoop_items hne hspaced ih rest []
  | object hne hnamed h ih =>
    apply parses_object
    intro rest
    exact objectLoop_members hne hnamed ih rest []

/-- The calls that reading takes are counted by what there is to read. -/
theorem Parses.ends {v : Value ν} {t : Bytes} (h : Parses num v t) (hg : Gap g) (hrest : Stops rest) :
    ∃ input', Left rest input' ∧ ∀ fuel, 4 * (g ++ (t ++ rest)).length + 4 ≤ fuel →
      Value.parse num fuel (ofString (g ++ (t ++ rest))) = some (some v, input') := by
  obtain ⟨fuel₀, input', hrun, hleft⟩ := h g rest hg hrest
  obtain ⟨v', input₁, hrun₁, -⟩ := (total num _).value (ofString (g ++ (t ++ rest))) (Nat.le_refl _)
  have hsame := (parse_stable hrun₁ (le_max_right fuel₀ _)).symm.trans (parse_stable hrun (le_max_left _ _))
  refine ⟨input', hleft, ?_⟩
  intro fuel hfuel
  rw [← hsame]
  exact parse_stable hrun₁ hfuel

/-- The numbers without sign, fraction and exponent. -/
def digits : Numbers Nat where
  extract s :=
    let ds := s.takeWhile fun c => 48 ≤ c && c ≤ 57
    (if ds.isEmpty then none else some (ds.foldl (fun n c => 10 * n + (c.toNat - 48)) 0),
      s.dropWhile fun c => 48 ≤ c && c ≤ 57)
  print n := (Nat.toDigits 10 n).map fun d => UInt8.ofNat d.toNat
  extract_suffix s := List.dropWhile_suffix _
  extract_other c s _ hc _ := by
    have hno : (48 ≤ c && c ≤ 57) = false := by
      simp only [Bool.and_eq_false_iff, decide_eq_false_iff_not, UInt8.not_le]
      exact hc
    simp [hno]

/-- Digits up to what ends an element are read as a number. -/
theorem digits_reads {n : Nat} {c : UInt8} {t : Bytes} (ht : ∀ d ∈ c :: t, (48 ≤ d && d ≤ 57) = true)
    (hn : (c :: t).foldl (fun n c => 10 * n + (c.toNat - 48)) 0 = n) : digits.Reads n (c :: t) := by
  refine ⟨⟨c, t, rfl, ?_, ?_⟩, ?_⟩
  · have hc := ht c List.mem_cons_self
    simp only [Bool.and_eq_true, decide_eq_true_eq, UInt8.le_iff_toNat_le, UInt8.reduceToNat] at hc
    simp only [isspace, Bool.or_eq_false_iff, Bool.and_eq_false_iff, decide_eq_false_iff_not, UInt8.le_iff_toNat_le,
      ← UInt8.toNat_inj, UInt8.reduceToNat]
    omega
  · rintro rfl
    have hc := ht 34 List.mem_cons_self
    exact absurd hc (by decide)
  · intro rest hrest
    have hstop : rest.takeWhile (fun d => 48 ≤ d && d ≤ 57) = [] ∧
      rest.dropWhile (fun d => 48 ≤ d && d ≤ 57) = rest := by
      cases rest with
      | nil => exact ⟨rfl, rfl⟩
      | cons d u =>
        have hd : (48 ≤ d && d ≤ 57) = false := by
          obtain hspace | rfl | rfl | rfl := hrest d u rfl
          · simp only [isspace, Bool.or_eq_true, Bool.and_eq_true, decide_eq_true_eq, UInt8.le_iff_toNat_le,
              ← UInt8.toNat_inj, UInt8.reduceToNat] at hspace
            simp only [Bool.and_eq_false_iff, decide_eq_false_iff_not, UInt8.le_iff_toNat_le, UInt8.reduceToNat]
            omega
          all_goals rfl
        simp [hd]
    show (_, _) = _
    rw [List.takeWhile_append_of_pos ht, List.dropWhile_append_of_pos ht, hstop.1, hstop.2, List.append_nil, hn]
    rfl

theorem gap_blank : Gap [32] := by simp [Gap, isspace]

/-- Members with space around them, the name of the first one again in the third. -/
def twice : List (Member Nat) :=
  [⟨[], [97], [32], [97], ⟨[], [49], [32], .number 1⟩⟩, ⟨[], [98], [], [98], ⟨[32], [91, 32, 93], [], .array []⟩⟩,
    ⟨[32], [97], [], [97], ⟨[], [34, 92, 117, 34], [], .string [92, 117]⟩⟩]

end Srl.JSON
