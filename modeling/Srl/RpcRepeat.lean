import Srl.RpcValue
import Srl.Base64RoundTrip

namespace Srl

open Bytes

/-- An object of an `RpcValue` class with the text that its last `asXml` left. -/
inductive RpcObject
  | NULL
  | scalar (type : RpcType) (str : Bytes) (value : Payload) (xml : Bytes)
  | array (array : List RpcObject) (xml : Bytes)
  | struct (struct : List (Bytes × RpcObject)) (xml : Bytes)
  | binary (str : Bytes) (bytes : Bytes) (xml : Bytes)

namespace RpcObject

mutual

/-- `asXml`, with the object that it leaves; `none` where a null pointer is followed. -/
def asXml : RpcObject → Option (Bytes × RpcObject)
  | .NULL => none
  | .scalar type str value _ => do
    let tag ← GetTag type
    let xml := bytes "<value><" ++ tag ++ bytes ">" ++ XML.encode str ++ bytes "</" ++ tag ++ bytes "></value>\n"
    some (xml, .scalar type str value xml)
  | .array values _ => do
    let r ← itemsAsXml values (bytes "<value>\n\t<array>\n\t\t<data>\n")
    let xml := r.1 ++ bytes "\t\t</data>\n\t\t</array>\n</value>\n"
    some (xml, .array r.2 xml)
  | .struct entries _ => do
    let r ← membersAsXml entries (bytes "<value>\n\t<struct>\n")
    let xml := r.1 ++ bytes "\t</struct>\n</value>\n"
    some (xml, .struct r.2 xml)
  | .binary str value _ =>
    let str := str ++ Base64.encode value
    let xml := bytes "<value><base64>" ++ str ++ bytes "</base64></value>\n"
    some (xml, .binary str value xml)

/-- The loop of `RpcArrayValue::asXml`, with the text so far. -/
def itemsAsXml : List RpcObject → Bytes → Option (Bytes × List RpcObject)
  | [], xml => some (xml, [])
  | o :: values, xml => do
    let r ← o.asXml
    let rs ← itemsAsXml values (xml ++ r.1)
    some (rs.1, r.2 :: rs.2)

/-- The loop of `RpcStructValue::asXml`. -/
def membersAsXml : List (Bytes × RpcObject) → Bytes → Option (Bytes × List (Bytes × RpcObject))
  | [], xml => some (xml, [])
  | (name, o) :: entries, xml => do
    let r ← o.asXml
    let rs ← membersAsXml entries
      (xml ++ bytes "\t\t<member>\n\t\t\t<name>" ++ XML.encode name ++ bytes "</name>\n\t\t\t" ++ r.1 ++
        bytes "\t\t</member>\n")
    some (rs.1, (name, r.2) :: rs.2)

end

/-- The texts of `n` calls of `asXml`, one after the other. -/
def calls : Nat → RpcObject → Option (List Bytes)
  | 0, _ => some []
  | n + 1, o => do
    let r ← o.asXml
    let xmls ← calls n r.2
    some (r.1 :: xmls)

mutual

/-- No null value, and no base64 value with bytes. -/
def Repeatable : RpcObject → Prop
  | .NULL => False
  | .scalar type _ _ _ => GetTag type ≠ none
  | .array values _ => ItemsRepeatable values
  | .struct entries _ => MembersRepeatable entries
  | .binary _ value _ => value = []

def ItemsRepeatable : List RpcObject → Prop
  | [] => True
  | o :: values => o.Repeatable ∧ ItemsRepeatable values

def MembersRepeatable : List (Bytes × RpcObject) → Prop
  | [] => True
  | (_, o) :: entries => o.Repeatable ∧ MembersRepeatable entries

end

mutual

/-- The value without the texts that calls have left. -/
def value : RpcObject → RpcValue
  | .NULL => .NULL
  | .scalar type str value _ => .scalar type str value
  | .array values _ => .array (itemsValue values)
  | .struct entries _ => .struct (membersValue entries)
  | .binary str value _ => .binary str value

def itemsValue : List RpcObject → List RpcValue
  | [] => []
  | o :: values => o.value :: itemsValue values

def membersValue : List (Bytes × RpcObject) → List (Bytes × RpcValue)
  | [] => []
  | (name, o) :: entries => (name, o.value) :: membersValue entries

end

mutual

/-- A second call finds what the first one left, and leaves it so. -/
theorem asXml_again : ∀ o : RpcObject, o.Repeatable → ∃ xml o', o.asXml = some (xml, o') ∧ o'.asXml = some (xml, o')
  | .scalar type str value _, h => by
    obtain ⟨tag, htag⟩ := Option.ne_none_iff_exists'.mp h
    refine ⟨_, _, by rw [asXml, htag]; rfl, ?_⟩
    rw [asXml, htag]
    rfl
  | .array values _, h => by
    obtain ⟨text, values', hitems⟩ := itemsAsXml_again values h
    obtain ⟨hfirst, hsecond⟩ := hitems (bytes "<value>\n\t<array>\n\t\t<data>\n")
    refine ⟨_, _, by rw [asXml, hfirst]; rfl, ?_⟩
    rw [asXml, hsecond]
    rfl
  | .struct entries _, h => by
    obtain ⟨text, entries', hmembers⟩ := membersAsXml_again entries h
    obtain ⟨hfirst, hsecond⟩ := hmembers (bytes "<value>\n\t<struct>\n")
    refine ⟨_, _, by rw [asXml, hfirst]; rfl, ?_⟩
    rw [asXml, hsecond]
    rfl
  | .binary str value _, h => by
    have hstr : str ++ Base64.encode value = str := by
      obtain rfl : value = [] := h
      exact List.append_nil str
    refine ⟨_, _, rfl, ?_⟩
    rw [asXml, hstr, hstr]

theorem itemsAsXml_again : ∀ values : List RpcObject, ItemsRepeatable values →
    ∃ text values', ∀ xml, itemsAsXml values xml = some (xml ++ text, values') ∧
      itemsAsXml values' xml = some (xml ++ text, values')
  | [], _ => ⟨[], [], fun xml => by rw [List.append_nil]; exact ⟨rfl, rfl⟩⟩
  | o :: values, ⟨ho, hvalues⟩ => by
    obtain ⟨t, o', hfirst, hsecond⟩ := asXml_again o ho
    obtain ⟨text, values', hrest⟩ := itemsAsXml_again values hvalues
    refine ⟨t ++ text, o' :: values', fun xml => ?_⟩
    obtain ⟨hrest₁, hrest₂⟩ := hrest (xml ++ t)
    rw [← List.append_assoc]
    constructor
    · rw [itemsAsXml, hfirst, Option.bind_eq_bind, Option.bind_some, hrest₁]
      rfl
    · rw [itemsAsXml, hsecond, Option.bind_eq_bind, Option.bind_some, hrest₂]
      rfl

theorem membersAsXml_again : ∀ entries : List (Bytes × RpcObject), MembersRepeatable entries →
    ∃ text entries', ∀ xml, membersAsXml entries xml = some (xml ++ text, entries') ∧
      membersAsXml entries' xml = some (xml ++ text, entries')
  | [], _ => ⟨[], [], fun xml => by rw [List.append_nil]; exact ⟨rfl, rfl⟩⟩
  | (name, o) :: entries, ⟨ho, hentries⟩ => by
    obtain ⟨t, o', hfirst, hsecond⟩ := asXml_again o ho
    obtain ⟨text, entries', hrest⟩ := membersAsXml_again entries hentries
    refine ⟨bytes "\t\t<member>\n\t\t\t<name>" ++ XML.encode name ++ bytes "</name>\n\t\t\t" ++ t ++
      bytes "\t\t</member>\n" ++ text,
      (name, o') :: entries', fun xml => ?_⟩
    obtain ⟨hrest₁, hrest₂⟩ := hrest (xml ++ bytes "\t\t<member>\n\t\t\t<name>" ++ XML.encode name ++
      bytes "</name>\n\t\t\t" ++ t ++ bytes "\t\t</member>\n")
    simp only [← List.append_assoc]
    constructor
    · rw [membersAsXml, hfirst, Option.bind_eq_bind, Option.bind_some, hrest₁]
      rfl
    · rw [membersAsXml, hsecond, Option.bind_eq_bind, Option.bind_some, hrest₂]
      rfl

end

mutual

/-- The text of a second call is not shorter, and longer if a base64 value has bytes. -/
theorem asXml_grows : ∀ (o : RpcObject) {xml : Bytes} {o' : RpcObject}, o.asXml = some (xml, o') →
    ∃ xml' o'', o'.asXml = some (xml', o'') ∧ xml.length ≤ xml'.length ∧ (xml'.length = xml.length → o.Repeatable)
  | .NULL, _, _, h => by cases h
  | .scalar type str value _, xml, o', h => by
    obtain ⟨tag, htag, h⟩ := Option.bind_eq_some_iff.mp h
    cases h
    refine ⟨_, _, by rw [asXml, htag]; rfl, Nat.le_refl _, fun _ => ?_⟩
    rw [Repeatable, htag]
    exact Option.some_ne_none tag
  | .array values _, xml, o', h => by
    obtain ⟨r, hitems, h⟩ := Option.bind_eq_some_iff.mp h
    cases h
    obtain ⟨t, values'', hrun, hle, heq⟩ := itemsAsXml_grows values hitems (bytes "<value>\n\t<array>\n\t\t<data>\n")
    refine ⟨_, _, by rw [asXml, hrun]; rfl, ?_, fun hlen => heq ?_⟩
    · simp only [List.length_append]
      omega
    · simp only [List.length_append] at hlen
      omega
  | .struct entries _, xml, o', h => by
    obtain ⟨r, hmembers, h⟩ := Option.bind_eq_some_iff.mp h
    cases h
    obtain ⟨t, entries'', hrun, hle, heq⟩ := membersAsXml_grows entries hmembers (bytes "<value>\n\t<struct>\n")
    refine ⟨_, _, by rw [asXml, hrun]; rfl, ?_, fun hlen => heq ?_⟩
    · simp only [List.length_append]
      omega
    · simp only [List.length_append] at hlen
      omega
  | .binary str value _, xml, o', h => by
    cases h
    refine ⟨_, _, rfl, ?_, fun hlen => ?_⟩
    · simp only [List.length_append]
      omega
    · simp only [List.length_append, Base64.length_encode] at hlen
      refine List.eq_nil_of_length_eq_zero ?_
      omega

theorem itemsAsXml_grows : ∀ (values : List RpcObject) {acc xml : Bytes} {values' : List RpcObject},
    itemsAsXml values acc = some (xml, values') → ∀ acc' : Bytes, ∃ xml' values'',
      itemsAsXml values' acc' = some (xml', values'') ∧
      xml.length + acc'.length ≤ xml'.length + acc.length ∧
      (xml'.length + acc.length = xml.length + acc'.length → ItemsRepeatable values)
  | [], acc, xml, values', h, acc' => by
    cases h
    exact ⟨acc', [], rfl, by omega, fun _ => trivial⟩
  | o :: values, acc, xml, values', h, acc' => by
    obtain ⟨r, hfirst, h⟩ := Option.bind_eq_some_iff.mp h
    obtain ⟨rs, hrest, h⟩ := Option.bind_eq_some_iff.mp h
    cases h
    obtain ⟨t, o'', hrun, hle, heq⟩ := asXml_grows o hfirst
    obtain ⟨ts, values'', hruns, hles, heqs⟩ := itemsAsXml_grows values hrest (acc' ++ t)
    simp only [List.length_append] at hles heqs
    refine ⟨ts, o'' :: values'', ?_, by omega, fun hlen => ⟨heq (by omega), heqs (by omega)⟩⟩
    rw [itemsAsXml, hrun, Option.bind_eq_bind, Option.bind_some, hruns]
    rfl

theorem membersAsXml_grows : ∀ (entries : List (Bytes × RpcObject)) {acc xml : Bytes}
    {entries' : List (Bytes × RpcObject)},
    membersAsXml entries acc = some (xml, entries') → ∀ acc' : Bytes, ∃ xml' entries'',
      membersAsXml entries' acc' = some (xml', entries'') ∧
      xml.length + acc'.length ≤ xml'.length + acc.length ∧
      (xml'.length + acc.length = xml.length + acc'.length → MembersRepeatable entries)
  | [], acc, xml, entries', h, acc' => by
    cases h
    exact ⟨acc', [], rfl, by omega, fun _ => trivial⟩
  | (name, o) :: entries, acc, xml, entries', h, acc' => by
    obtain ⟨r, hfirst, h⟩ := Option.bind_eq_some_iff.mp h
    obtain ⟨rs, hrest, h⟩ := Option.bind_eq_some_iff.mp h
    cases h
    obtain ⟨t, o'', hrun, hle, heq⟩ := asXml_grows o hfirst
    obtain ⟨ts, entries'', hruns, hles, heqs⟩ := membersAsXml_grows entries hrest (acc' ++
      bytes "\t\t<member>\n\t\t\t<name>" ++ XML.encode name ++ bytes "</name>\n\t\t\t" ++ t ++ bytes "\t\t</member>\n")
    simp only [List.length_append] at hles heqs
    refine ⟨ts, (name, o'') :: entries'', ?_, by omega, fun hlen => ⟨heq (by omega), heqs (by omega)⟩⟩
    rw [membersAsXml, hrun, Option.bind_eq_bind, Option.bind_some, hruns]
    rfl

end

/-- All calls of `asXml` in a row return the same text exactly if the tree has no null value and no
base64 value with bytes. -/
theorem calls_eq_replicate_iff (o : RpcObject) : (∃ xml, ∀ n, calls n o = some (List.replicate n xml)) ↔
    o.Repeatable := by
  constructor
  · rintro ⟨xml, h⟩
    obtain ⟨r, hfirst, h₂⟩ := Option.bind_eq_some_iff.mp (h 2)
    obtain ⟨xmls, h₁, hxmls⟩ := Option.bind_eq_some_iff.mp h₂
    obtain ⟨r', hsecond, h₀⟩ := Option.bind_eq_some_iff.mp h₁
    obtain ⟨xml', o'', hrun, -, heq⟩ := asXml_grows o hfirst
    cases hsecond.symm.trans hrun
    cases h₀
    obtain ⟨hr, hxml'⟩ := List.cons.inj (Option.some.inj hxmls)
    refine heq ?_
    have hx : xml' = xml := (List.cons.inj hxml').1
    rw [hx, hr]
  · intro h
    obtain ⟨xml, o', hfirst, hagain⟩ := asXml_again o h
    have hrest : ∀ n, calls n o' = some (List.replicate n xml) := by
      intro n
      induction n with
      | zero => rfl
      | succ n ih =>
        rw [calls, hagain, Option.bind_eq_bind, Option.bind_some, ih]
        rfl
    refine ⟨xml, fun n => ?_⟩
    cases n with
    | zero => rfl
    | succ n =>
      rw [calls, hfirst, Option.bind_eq_bind, Option.bind_some, hrest]
      rfl

/-- The second text of a base64 value has its bytes twice. -/
theorem not_calls_eq_replicate : ¬∀ o : RpcObject, o.asXml ≠ none → ∃ xml, ∀ n,
    calls n o = some (List.replicate n xml) := by
  intro h
  obtain ⟨xml, hcalls⟩ := h (.binary [] (bytes "a") []) (Option.some_ne_none _)
  have htwice : calls 2 (.binary [] (bytes "a") []) =
      some [bytes "<value><base64>YQ==</base64></value>\n", bytes "<value><base64>YQ==YQ==</base64></value>\n"] := rfl
  obtain ⟨h₁, h₂⟩ := List.cons.inj (Option.some.inj (htwice.symm.trans (hcalls 2)))
  exact absurd (h₁.trans (List.cons.inj h₂).1.symm) (by decide)

theorem text_wrapped {α β : Type} {x : Option (Bytes × α)} {y : Option Bytes} {front : Bytes} (back : Bytes)
    (f : Bytes × α → β) (h : x.map Prod.fst = y.map (front ++ ·)) :
    (x.bind fun r => some (r.1 ++ back, f r)).map Prod.fst = y.bind fun text => some (front ++ text ++ back) := by
  cases x with
  | none =>
    rw [Option.map_eq_none_iff.mp h.symm]
    rfl
  | some r =>
    obtain ⟨text, rfl, htext⟩ := Option.map_eq_some_iff.mp h.symm
    rw [Option.bind_some, Option.bind_some, Option.map_some, htext]

theorem text_chained {α β : Type} {x : Option (Bytes × α)} {y : Option Bytes} {acc front mid : Bytes}
    (f : Bytes × α → β) (h : x.map Prod.fst = y.map (acc ++ ·)) (hacc : acc = front ++ mid) :
    (x.bind fun r => some (r.1, f r)).map Prod.fst = (y.bind fun text => some (mid ++ text)).map (front ++ ·) := by
  cases x with
  | none =>
    rw [Option.map_eq_none_iff.mp h.symm]
    rfl
  | some r =>
    obtain ⟨text, rfl, htext⟩ := Option.map_eq_some_iff.mp h.symm
    rw [Option.bind_some, Option.bind_some, Option.map_some, Option.map_some, ← List.append_assoc, ← hacc, htext]

mutual

/-- The text of a call is the one of the value. -/
theorem asXml_value : ∀ o : RpcObject, o.asXml.map Prod.fst = o.value.asXml
  | .NULL => rfl
  | .scalar type str value _ => by
    rw [asXml, RpcObject.value, RpcValue.asXml]
    cases GetTag type <;> rfl
  | .array values _ => by
    rw [asXml, RpcObject.value, RpcValue.asXml]
    exact text_wrapped _ _ (itemsAsXml_value values _)
  | .struct entries _ => by
    rw [asXml, RpcObject.value, RpcValue.asXml]
    exact text_wrapped _ _ (membersAsXml_value entries _)
  | .binary str value _ => rfl

theorem itemsAsXml_value : ∀ (values : List RpcObject) (xml : Bytes),
    (itemsAsXml values xml).map Prod.fst = (RpcValue.itemsAsXml (itemsValue values)).map (xml ++ ·)
  | [], xml => by
    rw [itemsAsXml, itemsValue, RpcValue.itemsAsXml]
    exact congrArg some (List.append_nil xml).symm
  | o :: values, xml => by
    rw [itemsAsXml, itemsValue, RpcValue.itemsAsXml, ← asXml_value o]
    cases o.asXml with
    | none => rfl
    | some r => exact text_chained _ (itemsAsXml_value values (xml ++ r.1)) rfl

theorem membersAsXml_value : ∀ (entries : List (Bytes × RpcObject)) (xml : Bytes),
    (membersAsXml entries xml).map Prod.fst = (RpcValue.membersAsXml (membersValue entries)).map (xml ++ ·)
  | [], xml => by
    rw [membersAsXml, membersValue, RpcValue.membersAsXml]
    exact congrArg some (List.append_nil xml).symm
  | (name, o) :: entries, xml => by
    rw [membersAsXml, membersValue, RpcValue.membersAsXml, ← asXml_value o]
    cases o.asXml with
    | none => rfl
    | some r => exact text_chained _ (membersAsXml_value entries _) (by simp only [List.append_assoc])

end

end RpcObject

end Srl
