import Srl.JsonText

namespace Srl.JSON

open IStream

variable {ν : Type} {num : Numbers ν} {fuel : Nat} {input input' : IStream} {rest : Bytes}

/-- `std::hex << std::setw(6) << std::setfill('0') << static_cast<int>(c)`. -/
def hexInt (c : UInt8) : Bytes :=
  let digits := (Nat.toDigits 16 c.toInt8.toInt32.toUInt32.toNat).map fun d => UInt8.ofNat d.toNat
  List.replicate (6 - digits.length) 48 ++ digits

/-- What `stream_string` writes for one character. -/
def streamChar (c : UInt8) : Bytes :=
  if c = 34 then bytes "\\\""
  else if c = 92 then bytes "\\\\"
  else if c = 47 then bytes "\\/"
  else if c = 8 then bytes "\\b"
  else if c = 12 then bytes "\\f"
  else if c = 10 then bytes "\\n"
  else if c = 13 then bytes "\\r"
  else if c = 9 then bytes "\\t"
  else if char c < 32 then bytes "\\u" ++ hexInt c
  else [c]

def stream_string (s : Bytes) : Bytes := 34 :: (s.flatMap streamChar ++ [34])

mutual

/-- `operator<<` of a value; `none` where it reads outside a vector, as it does to find the last of no values. -/
def Value.print (num : Numbers ν) : Value ν → Option Bytes
  | .number x => some (num.print x)
  | .string s => some (stream_string s)
  | .bool b => some (bytes (if b then "true" else "false"))
  | .null => some (bytes "null")
  | .object value_map => do
    let members ← printMembers num value_map
    some (bytes "\x7b" ++ members ++ bytes "\x7d")
  | .array values => do
    let items ← printItems num values
    some (bytes "[" ++ items ++ bytes "]")

/-- The loop of `operator<<` of an array and the value behind it. -/
def printItems (num : Numbers ν) : List (Value ν) → Option Bytes
  | [] => none
  | [v] => v.print num
  | v :: w :: values => do
    let t ← v.print num
    let items ← printItems num (w :: values)
    some (t ++ bytes ", " ++ items)

/-- The loop of `operator<<` of an object. -/
def printMembers (num : Numbers ν) : List (Bytes × Value ν) → Option Bytes
  | [] => some []
  | [(key, v)] => do
    let t ← v.print num
    some (stream_string key ++ bytes ": " ++ t)
  | (key, v) :: b :: value_map => do
    let t ← v.print num
    let members ← printMembers num (b :: value_map)
    some (stream_string key ++ bytes ": " ++ t ++ bytes ", " ++ members)

end

/-- The characters that `stream_string` does not write as a number: those of ASCII, without the controls that have no
letter of their own. -/
def Plain (c : UInt8) : Prop := 32 ≤ c ∧ c < 128 ∨ c = 8 ∨ c = 12 ∨ c = 10 ∨ c = 13 ∨ c = 9

/-- The values that can be printed and parsed again. -/
inductive Printable (num : Numbers ν) : Value ν → Prop where
  | number {x : ν} (h : num.Reads x (num.print x)) : Printable num (.number x)
  | string {s : Bytes} (h : ∀ c ∈ s, Plain c) : Printable num (.string s)
  | bool (b : Bool) : Printable num (.bool b)
  | null : Printable num .null
  | array {values : List (Value ν)} (hne : values ≠ []) (h : ∀ v ∈ values, Printable num v) :
    Printable num (.array values)
  | object {value_map : List (Bytes × Value ν)} (hne : value_map ≠ []) (hsorted : SortedMap.Sorted rank value_map)
      (hkeys : ∀ b ∈ value_map, ∀ c ∈ b.1, Plain c) (h : ∀ b ∈ value_map, Printable num b.2) :
        Printable num (.object value_map)

theorem quoted_streamChar {c : UInt8} (hc : Plain c) {s t : Bytes} (h : Quoted s t) :
    Quoted (c :: s) (streamChar c ++ t) := by
  by_cases hspecial : c = 34 ∨ c = 92 ∨ c = 47 ∨ c = 8 ∨ c = 12 ∨ c = 10 ∨ c = 13 ∨ c = 9
  · obtain rfl | rfl | rfl | rfl | rfl | rfl | rfl | rfl := hspecial
    · exact Quoted.escape 34 h
    · exact Quoted.escape 92 h
    · exact Quoted.escape 47 h
    · exact Quoted.escape 98 h
    · exact Quoted.escape 102 h
    · exact Quoted.escape 110 h
    · exact Quoted.escape 114 h
    · exact Quoted.escape 116 h
  · have hrange : 32 ≤ c ∧ c < 128 := by
      obtain h | rfl | rfl | rfl | rfl | rfl := hc
      · exact h
      all_goals simp at hspecial
    have hself : streamChar c = [c] := by
      have hpositive : ¬char c < 32 := by
        have key : ∀ n < 128, 32 ≤ n → ¬char (UInt8.ofNat n) < 32 := by decide
        have hc := key c.toNat (UInt8.lt_iff_toNat_lt.mp hrange.2) (UInt8.le_iff_toNat_le.mp hrange.1)
        rwa [UInt8.ofNat_toNat] at hc
      simp only [not_or] at hspecial
      simp only [streamChar, hspecial, hpositive, ↓reduceIte]
    rw [hself]
    exact Quoted.plain (fun h => hspecial (Or.inl h)) (fun h => hspecial (Or.inr (Or.inl h))) h

theorem quoted_stream {s : Bytes} (h : ∀ c ∈ s, Plain c) : Quoted s (s.flatMap streamChar) := by
  induction s with
  | nil => exact Quoted.nil
  | cons c s ih =>
    rw [List.flatMap_cons]
    exact quoted_streamChar (h c List.mem_cons_self) (ih fun d hd => h d (List.mem_cons_of_mem c hd))

/-- What is printed for a value is one of its texts. -/
def Prints (num : Numbers ν) (v : Value ν) : Prop := ∃ t, v.print num = some t ∧ Text num v t

/-- The printed values of an array are laid out with a comma and a blank between them, whatever space the first has in
front of it. -/
theorem printItems_layout {values : List (Value ν)} (hne : values ≠ []) (h : ∀ v ∈ values, Prints num v) :
    ∃ t, printItems num values = some t ∧ ∀ g, Gap g → ∃ items : List (Item ν), items ≠ [] ∧ (∀ x ∈ items, x.Spaced) ∧
      (∀ x ∈ items, Text num x.value x.text) ∧ items.map Item.value = values ∧
        joined (items.map Item.layout) = g ++ t := by
  have hnone : Gap [] := by simp [Gap]
  induction values with
  | nil => contradiction
  | cons v values ih =>
    obtain ⟨t, hprint, htext⟩ := h v List.mem_cons_self
    cases values with
    | nil =>
      refine ⟨t, hprint, fun g hg => ⟨[⟨g, t, [], v⟩], by simp, ?_, ?_, rfl, ?_⟩⟩
      · intro x hx
        rw [List.mem_singleton.mp hx]
        exact ⟨hg, hnone⟩
      · intro x hx
        rw [List.mem_singleton.mp hx]
        exact htext
      · simp [joined, Item.layout]
    | cons w values =>
      obtain ⟨u, hprints, hlayout⟩ := ih (by simp) fun x hx => h x (List.mem_cons_of_mem v hx)
      refine ⟨t ++ bytes ", " ++ u, by rw [printItems, hprint, hprints]; rfl, fun g hg => ?_⟩
      obtain ⟨items, hitems, hspaced, htexts, hvalues, hjoined⟩ := hlayout [32] (by simp [Gap, isspace])
      refine ⟨⟨g, t, [], v⟩ :: items, by simp, ?_, ?_, ?_, ?_⟩
      · intro x hx
        obtain rfl | hx := List.mem_cons.mp hx
        · exact ⟨hg, hnone⟩
        · exact hspaced x hx
      · intro x hx
        obtain rfl | hx := List.mem_cons.mp hx
        · exact htext
        · exact htexts x hx
      · rw [List.map_cons, hvalues]
      · rw [List.map_cons, joined_cons (by simpa using hitems), hjoined]
        simp [Item.layout, bytes]

theorem printMembers_layout {value_map : List (Bytes × Value ν)} (hne : value_map ≠ [])
    (hkeys : ∀ b ∈ value_map, ∀ c ∈ b.1, Plain c) (h : ∀ b ∈ value_map, Prints num b.2) :
    ∃ t, printMembers num value_map = some t ∧ ∀ g, Gap g → ∃ members : List (Member ν), members ≠ [] ∧
      (∀ x ∈ members, x.Named) ∧ (∀ x ∈ members, Text num x.item.value x.item.text) ∧
      members.map (fun x => (x.key, x.item.value)) = value_map ∧ joined (members.map Member.layout) = g ++ t := by
  have hnone : Gap [] := by simp [Gap]
  have hblank : Gap [32] := by simp [Gap, isspace]
  induction value_map with
  | nil => contradiction
  | cons b value_map ih =>
    obtain ⟨key, v⟩ := b
    obtain ⟨t, hprint, htext⟩ := h (key, v) List.mem_cons_self
    have hquoted : Quoted key (key.flatMap streamChar) := quoted_stream (hkeys (key, v) List.mem_cons_self)
    have hnamed : ∀ g, Gap g → (⟨g, key.flatMap streamChar, [], key, ⟨[32], t, [], v⟩⟩ : Member ν).Named := fun g hg =>
      ⟨hg, hquoted, hnone, hblank, hnone⟩
    cases value_map with
    | nil =>
      refine ⟨stream_string key ++ bytes ": " ++ t, by rw [printMembers, hprint]; rfl, fun g hg =>
        ⟨[⟨g, key.flatMap streamChar, [], key, ⟨[32], t, [], v⟩⟩], by simp, ?_, ?_, rfl, ?_⟩⟩
      · intro x hx
        rw [List.mem_singleton.mp hx]
        exact hnamed g hg
      · intro x hx
        rw [List.mem_singleton.mp hx]
        exact htext
      · simp [joined, Member.layout, Item.layout, stream_string, bytes]
    | cons c value_map =>
      obtain ⟨u, hprints, hlayout⟩ := ih (by simp) (fun x hx => hkeys x (List.mem_cons_of_mem _ hx))
        fun x hx => h x (List.mem_cons_of_mem _ hx)
      refine ⟨stream_string key ++ bytes ": " ++ t ++ bytes ", " ++ u, by rw [printMembers, hprint, hprints]; rfl,
        fun g hg => ?_⟩
      obtain ⟨members, hmembers, hnameds, htexts, hvalues, hjoined⟩ := hlayout [32] hblank
      refine ⟨⟨g, key.flatMap streamChar, [], key, ⟨[32], t, [], v⟩⟩ :: members, by simp, ?_, ?_, ?_, ?_⟩
      · intro x hx
        obtain rfl | hx := List.mem_cons.mp hx
        · exact hnamed g hg
        · exact hnameds x hx
      · intro x hx
        obtain rfl | hx := List.mem_cons.mp hx
        · exact htext
        · exact htexts x hx
      · rw [List.map_cons, hvalues]
      · rw [List.map_cons, joined_cons (by simpa using hmembers), hjoined]
        simp [Member.layout, Item.layout, stream_string, bytes]

theorem Printable.prints {v : Value ν} (h : Printable num v) : Prints num v := by
  induction h with
  | @number x h => exact ⟨num.print x, rfl, Text.number h⟩
  | @string s h => exact ⟨stream_string s, rfl, Text.string (quoted_stream h)⟩
  | bool b =>
    cases b
    · exact ⟨bytes "false", rfl, Text.false⟩
    · exact ⟨bytes "true", rfl, Text.true⟩
  | null => exact ⟨bytes "null", rfl, Text.null⟩
  | @array values hne h ih =>
    obtain ⟨t, hprint, hlayout⟩ := printItems_layout hne ih
    obtain ⟨items, hitems, hspaced, htexts, hvalues, hjoined⟩ := hlayout [] (by simp [Gap])
    refine ⟨bytes "[" ++ t ++ bytes "]", by rw [Value.print, hprint]; rfl, ?_⟩
    have htext := Text.array hitems hspaced htexts
    rw [hvalues, hjoined] at htext
    simpa [bytes] using htext
  | @object value_map hne hsorted hkeys h ih =>
    obtain ⟨t, hprint, hlayout⟩ := printMembers_layout hne hkeys ih
    obtain ⟨members, hmembers, hnamed, htexts, hvalues, hjoined⟩ := hlayout [] (by simp [Gap])
    refine ⟨bytes "\x7b" ++ t ++ bytes "\x7d", by rw [Value.print, hprint]; rfl, ?_⟩
    have htext := Text.object hmembers hnamed htexts
    rw [hvalues, hjoined, SortedMap.ofList_of_sorted hsorted] at htext
    simpa [bytes] using htext

theorem Prints.returns {v : Value ν} (h : Prints num v) (hrest : Stops rest) :
    ∃ t input', v.print num = some t ∧ input'.rest = rest ∧ input'.fail = false ∧
      ∀ fuel, 4 * (t ++ rest).length + 4 ≤ fuel → Value.parse num fuel (ofString (t ++ rest)) =
        some (some v, input') := by
  obtain ⟨t, hprint, htext⟩ := h
  obtain ⟨input', hleft, hall⟩ := htext.parses.ends (g := []) (by simp [Gap]) hrest
  exact ⟨t, input', hprint, hleft.stands, hleft.sound, hall⟩

/-- A printed value is parsed as that value, whatever follows it. -/
theorem parse_print (num : Numbers ν) {v : Value ν} {rest : Bytes} (h : Printable num v) (hrest : Stops rest) :
    ∃ t input', v.print num = some t ∧ input'.rest = rest ∧ input'.fail = false ∧
      ∀ fuel, 4 * (t ++ rest).length + 4 ≤ fuel → Value.parse num fuel (ofString (t ++ rest)) =
        some (some v, input') :=
  h.prints.returns hrest

theorem parse_print_object : ∃ t input', Value.print digits (.object [(bytes "a", .array [.number 42, .bool true]),
      (bytes "b", .string (bytes "x/\n"))]) = some t ∧ input'.rest = [] ∧ input'.fail = false ∧
    ∀ fuel, 4 * (t ++ []).length + 4 ≤ fuel → Value.parse digits fuel (ofString (t ++ [])) =
      some (some (.object [(bytes "a", .array [.number 42, .bool true]),
        (bytes "b", .string (bytes "x/\n"))]), input') := by
  have hnumber : Printable digits (.number 42) := .number (digits_reads (c := 52) (t := [50]) (by decide) (by decide))
  have harray : Printable digits (.array [.number 42, .bool true]) := by
    refine .array (by simp) ?_
    intro v hv
    simp only [List.mem_cons, List.not_mem_nil, or_false] at hv
    obtain rfl | rfl := hv
    · exact hnumber
    · exact .bool true
  have hstring : Printable digits (.string (bytes "x/\n")) := .string (by
    simp only [bytes, Plain]
    decide)
  refine parse_print digits (.object (by simp) (List.pairwise_pair.mpr (by decide)) ?_ ?_) fun c u h => by cases h
  · intro b hb
    simp only [List.mem_cons, List.not_mem_nil, or_false] at hb
    obtain rfl | rfl := hb <;> (simp only [bytes, Plain]; decide)
  · intro b hb
    simp only [List.mem_cons, List.not_mem_nil, or_false] at hb
    obtain rfl | rfl := hb
    · exact harray
    · exact hstring

/-- The maps in a value list their entries in the order of their keys, and no key has two. -/
inductive WellFormed : Value ν → Prop where
  | number (x : ν) : WellFormed (.number x)
  | string (s : Bytes) : WellFormed (.string s)
  | bool (b : Bool) : WellFormed (.bool b)
  | null : WellFormed .null
  | array {values : List (Value ν)} (h : ∀ v ∈ values, WellFormed v) : WellFormed (.array values)
  | object {value_map : List (Bytes × Value ν)} (hsorted : SortedMap.Sorted rank value_map)
      (h : ∀ b ∈ value_map, WellFormed b.2) : WellFormed (.object value_map)

structure WellFormedMap (value_map : List (Bytes × Value ν)) : Prop where
  sorted : SortedMap.Sorted rank value_map
  values : ∀ b ∈ value_map, WellFormed b.2

theorem WellFormedMap.nil : WellFormedMap ([] : List (Bytes × Value ν)) where
  sorted := List.Pairwise.nil
  values _ hb := absurd hb List.not_mem_nil

theorem WellFormedMap.put {value_map : List (Bytes × Value ν)} {v : Value ν} (h : WellFormedMap value_map)
    (hv : WellFormed v) (key : Bytes) : WellFormedMap (put key v value_map) where
  sorted := SortedMap.put_sorted h.sorted
  values b hb := by
    rcases SortedMap.mem_put hb with ⟨-, rfl⟩ | hb
    · exact hv
    · exact h.values b hb

/-- What is made with `fuel` calls is well formed. -/
structure Forms (num : Numbers ν) (fuel : Nat) : Prop where
  value : ∀ input v input', Value.parse num fuel input = some (some v, input') → WellFormed v
  last : ∀ input v input', Value.parseObject num fuel input = some (some v, input') → WellFormed v
  array : ∀ input values input', Array.parse num fuel input = some (some values, input') → ∀ v ∈ values, WellFormed v
  arrayLoop : ∀ input values values' input', Array.parseLoop num fuel input values = some (values', input') →
    (∀ v ∈ values, WellFormed v) → ∀ v ∈ values', WellFormed v
  object : ∀ input value_map input', Object.parse num fuel input = some (some value_map, input') →
    WellFormedMap value_map
  objectLoop : ∀ input value_map value_map' input',
    Object.parseLoop num fuel input value_map = some (some value_map', input') → WellFormedMap value_map →
      WellFormedMap value_map'

theorem Forms.value_succ (f : Forms num fuel) (input v input')
    (h : Value.parse num (fuel + 1) input = some (some v, input')) : WellFormed v := by
  unfold Value.parse at h
  split at h
  next s _ _ =>
    cases h
    exact .string s
  next =>
    split at h
    next x _ _ =>
      cases h
      exact .number x
    next =>
      split at h
      next =>
        cases h
        exact .bool _
      next =>
        split at h
        next =>
          cases h
          exact .null
        next =>
          split at h
          next =>
            split at h
            next => cases h
            next hrun =>
              cases h
              exact .array (f.array _ _ _ hrun)
            next => exact f.last _ _ _ h
          next => exact f.last _ _ _ h

theorem Forms.last_succ (f : Forms num fuel) (input v input')
    (h : Value.parseObject num (fuel + 1) input = some (some v, input')) : WellFormed v := by
  unfold Value.parseObject at h
  split at h
  next => cases h
  next hrun =>
    cases h
    have hmap := f.object _ _ _ hrun
    exact .object hmap.sorted hmap.values
  next => cases h

theorem Forms.array_succ (f : Forms num fuel) (input values input')
    (h : Array.parse num (fuel + 1) input = some (some values, input')) : ∀ v ∈ values, WellFormed v := by
  unfold Array.parse at h
  split at h
  next => cases h
  next =>
    split at h
    next => cases h
    next hrun =>
      split at h
      next =>
        cases h
        exact f.arrayLoop _ _ _ _ hrun fun v hv => absurd hv List.not_mem_nil
      next => cases h

theorem Forms.arrayLoop_succ (f : Forms num fuel) (input values values' input')
    (h : Array.parseLoop num (fuel + 1) input values = some (values', input')) (hall : ∀ v ∈ values, WellFormed v) :
    ∀ v ∈ values', WellFormed v := by
  unfold Array.parseLoop at h
  split at h
  next => cases h
  next =>
    cases h
    exact hall
  next w _ hrun =>
    have hmore : ∀ v ∈ values ++ [w], WellFormed v := by
      intro v hv
      rcases List.mem_append.mp hv with hv | hv
      · exact hall v hv
      · rw [List.mem_singleton.mp hv]
        exact f.value _ _ _ hrun
    split at h
    next => exact f.arrayLoop _ _ _ _ h hmore
    next =>
      cases h
      exact hmore

theorem Forms.object_succ (f : Forms num fuel) (input value_map input')
    (h : Object.parse num (fuel + 1) input = some (some value_map, input')) : WellFormedMap value_map := by
  unfold Object.parse at h
  split at h
  next => cases h
  next =>
    split at h
    next => cases h
    next => cases h
    next hrun =>
      split at h
      next =>
        cases h
        exact f.objectLoop _ _ _ _ hrun .nil
      next => cases h

theorem Forms.objectLoop_succ (f : Forms num fuel) (input value_map value_map' input')
    (h : Object.parseLoop num (fuel + 1) input value_map = some (some value_map', input'))
    (hmap : WellFormedMap value_map) : WellFormedMap value_map' := by
  unfold Object.parseLoop at h
  split at h
  next => cases h
  next key _ _ =>
    split at h
    next => cases h
    next =>
      split at h
      next => cases h
      next =>
        cases h
        exact hmap
      next hrun =>
        have hmore := hmap.put (f.value _ _ _ hrun) key
        split at h
        next => exact f.objectLoop _ _ _ _ h hmore
        next =>
          cases h
          exact hmore

theorem forms (num : Numbers ν) (fuel : Nat) : Forms num fuel := by
  induction fuel with
  | zero => constructor <;> intros <;> contradiction
  | succ fuel ih =>
    exact ⟨ih.value_succ, ih.last_succ, ih.array_succ, ih.arrayLoop_succ, ih.object_succ, ih.objectLoop_succ⟩

/-- Apart from the order of its maps, what makes a value printable. -/
inductive Legible (num : Numbers ν) : Value ν → Prop where
  | number {x : ν} (h : num.Reads x (num.print x)) : Legible num (.number x)
  | string {s : Bytes} (h : ∀ c ∈ s, Plain c) : Legible num (.string s)
  | bool (b : Bool) : Legible num (.bool b)
  | null : Legible num .null
  | array {values : List (Value ν)} (hne : values ≠ []) (h : ∀ v ∈ values, Legible num v) :
    Legible num (.array values)
  | object {value_map : List (Bytes × Value ν)} (hne : value_map ≠ [])
      (hkeys : ∀ b ∈ value_map, ∀ c ∈ b.1, Plain c) (h : ∀ b ∈ value_map, Legible num b.2) :
        Legible num (.object value_map)

theorem Legible.printable {v : Value ν} (h : Legible num v) (hv : WellFormed v) : Printable num v := by
  induction h with
  | number h => exact .number h
  | string h => exact .string h
  | bool b => exact .bool b
  | null => exact .null
  | array hne h ih =>
    cases hv with
    | array hall => exact .array hne fun v hv => ih v hv (hall v hv)
  | object hne hkeys h ih =>
    cases hv with
    | object hsorted hall => exact .object hne hsorted hkeys fun b hb => ih b hb (hall b hb)

/-- A value that was parsed is printed as a text that is parsed as that value again. -/
theorem print_parsed (num : Numbers ν) {v : Value ν} (hparse : Value.parse num fuel input = some (some v, input'))
    (h : Legible num v) (hrest : Stops rest) :
    ∃ t input'', v.print num = some t ∧ input''.rest = rest ∧ input''.fail = false ∧
      ∀ fuel', 4 * (t ++ rest).length + 4 ≤ fuel' → Value.parse num fuel' (ofString (t ++ rest)) =
        some (some v, input'') :=
  (h.printable ((forms num fuel).value _ _ _ hparse)).prints.returns hrest

/-- Members that are not in order, the name of the first one again in the third. -/
def again : List (Member Nat) :=
  [⟨[], [98], [], [98], ⟨[], [49], [], .number 1⟩⟩, ⟨[], [97], [], [97], ⟨[32], bytes "true", [], .bool true⟩⟩,
    ⟨[], [98], [], [98], ⟨[], [34, 120, 34], [], .string [120]⟩⟩]

theorem print_parsed_again : ∃ t input'', Value.print digits (.object [(bytes "a", .bool true),
      (bytes "b", .string (bytes "x"))]) = some t ∧ input''.rest = bytes "]" ∧ input''.fail = false ∧
    ∀ fuel', 4 * (t ++ bytes "]").length + 4 ≤ fuel' → Value.parse digits fuel' (ofString (t ++ bytes "]")) =
      some (some (.object [(bytes "a", .bool true), (bytes "b", .string (bytes "x"))]), input'') := by
  have hnone : Gap [] := by simp [Gap]
  have hnamed : ∀ x ∈ again, x.Named := by
    intro x hx
    simp only [again, List.mem_cons, List.not_mem_nil, or_false] at hx
    obtain rfl | rfl | rfl := hx
    · exact ⟨hnone, .plain (by decide) (by decide) .nil, hnone, hnone, hnone⟩
    · exact ⟨hnone, .plain (by decide) (by decide) .nil, hnone, gap_blank, hnone⟩
    · exact ⟨hnone, .plain (by decide) (by decide) .nil, hnone, hnone, hnone⟩
  have hvalues : ∀ x ∈ again, Text digits x.item.value x.item.text := by
    intro x hx
    simp only [again, List.mem_cons, List.not_mem_nil, or_false] at hx
    obtain rfl | rfl | rfl := hx
    · exact Text.number (digits_reads (by decide) (by decide))
    · exact Text.true
    · exact Text.string (.plain (by decide) (by decide) .nil)
  have hstops : Stops (bytes "]") := by
    intro c u h
    exact Or.inr (Or.inr (Or.inl (List.cons.inj h).1.symm))
  obtain ⟨input', -, hall⟩ := (Text.object (by simp [again]) hnamed hvalues).parses.ends hnone hstops
  refine print_parsed digits (hall _ (Nat.le_refl _)) (.object (by simp) ?_ ?_) hstops
  · intro b hb
    simp only [List.mem_cons, List.not_mem_nil, or_false] at hb
    obtain rfl | rfl := hb <;> (simp only [bytes, Plain]; decide)
  · intro b hb
    simp only [List.mem_cons, List.not_mem_nil, or_false] at hb
    obtain rfl | rfl := hb
    · exact .bool true
    · refine .string ?_
      simp only [bytes, Plain]
      decide

end Srl.JSON
