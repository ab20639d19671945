import Srl.RpcTyped
import Srl.Numerals

namespace Srl

open Bytes XML XML.Parser

/-- Characters that a text can hold without entities. -/
def CleanChar (c : UInt8) : Prop := (9 ≤ c ∧ c ≤ 13 ∨ 32 ≤ c ∧ c ≤ 127) ∧ c ∉ bytes "<>&'\""

instance (c : UInt8) : Decidable (CleanChar c) := by unfold CleanChar; infer_instance

theorem exists_ofNat {c : UInt8} (hc : c ≤ 127) : ∃ n < 128, c = UInt8.ofNat n := by
  have hlt := UInt8.le_iff_toNat_le.mp hc
  simp only [UInt8.reduceToNat] at hlt
  exact ⟨c.toNat, by omega, UInt8.ofNat_toNat.symm⟩

theorem CleanChar.le {c : UInt8} (h : CleanChar c) : c ≤ 127 := by
  obtain ⟨h | h, -⟩ := h
  · exact UInt8.le_trans h.2 (by decide)
  · exact h.2

section

variable {s : Bytes} (h : ∀ c ∈ s, CleanChar c)
include h

theorem encode_cleanChars : XML.encode s = s := by
  refine encode_of_plain fun c hc => ?_
  have key : ∀ n < 128, CleanChar (UInt8.ofNat n) → encodeChar (UInt8.ofNat n) = [UInt8.ofNat n] := by decide
  have hchar := h c hc
  obtain ⟨n, hn, rfl⟩ := exists_ofNat hchar.le
  exact key n hn hchar

theorem decode_cleanChars : XML.decode s = s := by
  refine decode_of_plain fun c hc => ?_
  rintro rfl
  exact absurd (h _ hc) (by decide)

theorem plainText_cleanChars : PlainText s := by
  intro c hc
  constructor <;> rintro rfl <;> exact absurd (h _ hc) (by decide)

end

/-- Clean texts with more than white space. -/
structure Clean (s : Bytes) : Prop where
  chars : ∀ c ∈ s, CleanChar c
  inked : Inked s

namespace Clean

variable {s : Bytes}

theorem encode (h : Clean s) : XML.encode s = s := encode_cleanChars h.chars

theorem decode (h : Clean s) : XML.decode s = s := decode_cleanChars h.chars

theorem plainText (h : Clean s) : PlainText s := plainText_cleanChars h.chars

theorem val (num : Int32) : Clean (Bytes.val num 10) := by
  have hchar : ∀ c ∈ Bytes.val num 10, CleanChar c ∧ isspace c = false := by
    intro c hc
    have key : ∀ n < 128, (UInt8.ofNat n = 45 ∨ 48 ≤ UInt8.ofNat n ∧ UInt8.ofNat n ≤ 57) →
        CleanChar (UInt8.ofNat n) ∧ isspace (UInt8.ofNat n) = false := by decide
    have hle : c ≤ 127 := by
      obtain rfl | h := mem_val hc
      · decide
      · exact UInt8.le_trans h.2 (by decide)
    have hdigit := mem_val hc
    obtain ⟨n, hn, rfl⟩ := exists_ofNat hle
    exact key n hn hdigit
  obtain ⟨c, s, hs⟩ := List.exists_cons_of_ne_nil (val_ne_nil num)
  refine ⟨fun c hc => (hchar c hc).1, ?_⟩
  have hspace := (hchar c (by rw [hs]; simp)).2
  simp [Inked, hs, hspace]

end Clean

namespace RpcValue

/-- The values of the round trip. A struct has the names that its dictionary keeps apart. -/
inductive Sendable : RpcValue → Prop
  | ofInt (n : Int32) : Sendable (.ofInt n)
  | ofBool (b : Bool) : Sendable (.ofBool b)
  | ofString {s : Bytes} : Clean s → Sendable (.ofString s)
  | array {values : List RpcValue} : (∀ v ∈ values, Sendable v) → Sendable (.array values)
  | struct {entries : List (Bytes × RpcValue)} : (∀ x ∈ entries, Clean x.1) →
      (∀ x ∈ entries, Sendable x.2) → KeyedList.Distinct Hasher.hash entries → Sendable (.struct entries)

/-- The members of any dictionary of clean names can be sent. -/
theorem Sendable.ofDictionary [Inhabited RpcValue] {d : Dictionary Bytes RpcValue}
    {entries : List (Bytes × RpcValue)} (hd : Dictionary.Represents d entries)
    (hnames : ∀ x ∈ entries, Clean x.1) (hvalues : ∀ x ∈ entries, Sendable x.2) :
    Sendable (.struct entries) := .struct hnames hvalues hd.distinct

theorem bind_some {α β : Type} (a : α) (f : α → Option β) : (some a >>= f) = f a := rfl

mutual

/-- The document that `asXml` writes. -/
def toDoc : RpcValue → Doc
  | .scalar .TypeInt str _ => .scalar .int [] str []
  | .scalar .TypeBoolean str _ => .scalar .boolean [] str []
  | .scalar _ str _ => .scalar .string [] str []
  | .array values =>
    .array (bytes "\n\t") (bytes "\n\t\t") (itemsToDoc values) (bytes "\n\t\t") (bytes "\n\t\t") (bytes "\n")
  | .struct entries => .struct (bytes "\n\t") (membersToDoc entries) (bytes "\n\t") (bytes "\n")
  | .NULL | .binary _ _ => .untyped []

def itemsToDoc : List RpcValue → List (Bytes × Doc)
  | [] => []
  | v :: values => (bytes "\n", v.toDoc) :: itemsToDoc values

def membersToDoc : List (Bytes × RpcValue) → List (Slot × Doc)
  | [] => []
  | (name, v) :: entries =>
    (⟨bytes "\n\t\t", bytes "\n\t\t\t", name, bytes "\n\t\t\t", bytes "\n\t\t"⟩, v.toDoc) :: membersToDoc entries

end

/-- The text of a value is its document with a line feed behind it. -/
structure Written (v : RpcValue) : Prop where
  xml : v.asXml = some (render (⟨[], .opening, VALUE_TAG⟩ :: v.toDoc.body) ++ bytes "\n")
  wellFormed : v.toDoc.WellFormed
  typed : v.toDoc.Typed
  meaning : v.toDoc.meaning = v

theorem asXml_scalar {type : RpcType} {s : Scalar} {str : Bytes} (value : Payload) (hs : XML.encode str = str)
    (htag : GetTag type = some s.tag) : (RpcValue.scalar type str value).asXml =
      some (render (⟨[], .opening, VALUE_TAG⟩ :: (Doc.scalar s [] str []).body) ++ bytes "\n") := by
  rw [asXml, htag]
  simp [hs, Doc.body, Piece.render, Piece.tag, bytes, VALUE_TAG]

theorem Written.scalar {type : RpcType} {s : Scalar} {str : Bytes} {value : Payload} (hs : Clean str)
    (htag : GetTag type = some s.tag) (hdoc : (RpcValue.scalar type str value).toDoc = .scalar s [] str [])
    (hmake : s.make str = some (.scalar type str value)) : Written (.scalar type str value) := by
  refine ⟨?_, ?_, ?_, ?_⟩
  · rw [hdoc, asXml_scalar value hs.encode htag]
  · rw [hdoc]
    exact ⟨by decide, hs.plainText, by decide, fun _ => by rw [hmake]; rfl⟩
  · rw [hdoc]
    trivial
  · rw [hdoc, Doc.meaning, if_pos hs.inked, hmake, Option.getD_some]

theorem Written.items {values : List RpcValue} (h : ∀ v ∈ values, Written v) :
    (∃ items, itemsAsXml values = some items ∧
        10 :: items = render (Doc.itemsBody (itemsToDoc values)) ++ bytes "\n") ∧
      Doc.ItemsWellFormed (itemsToDoc values) ∧ Doc.ItemsTyped (itemsToDoc values) ∧
      Doc.itemsMeaning (itemsToDoc values) = values := by
  induction values with
  | nil => exact ⟨⟨[], rfl, rfl⟩, trivial, trivial, rfl⟩
  | cons v values ih =>
    have hv := h v (by simp)
    obtain ⟨⟨items, hitems, htext⟩, hwf, htyped, hmeaning⟩ := ih fun v hv => h v (by simp [hv])
    refine ⟨⟨_, by rw [itemsAsXml, hv.xml, hitems]; rfl, ?_⟩, ⟨by decide, hv.wellFormed, hwf⟩,
      ⟨hv.typed, htyped⟩, by rw [itemsToDoc, Doc.itemsMeaning, hv.meaning, hmeaning]⟩
    rw [itemsToDoc, Doc.itemsBody]
    simp only [render_cons, render_append, List.append_assoc, Piece.render]
    rw [← htext]
    simp [bytes, Piece.tag]

/-- The members with their names as `asXml` writes them. -/
def encodedNames (entries : List (Bytes × RpcValue)) : List (Bytes × RpcValue) :=
  entries.map fun x => (XML.encode x.1, x.2)

theorem encodedNames_clean {entries : List (Bytes × RpcValue)} (h : ∀ x ∈ entries, Clean x.1) :
    encodedNames entries = entries := by
  rw [encodedNames, List.map_congr_left fun x hx => by rw [(h x hx).encode]]
  exact List.map_id entries

theorem Written.members_text {entries : List (Bytes × RpcValue)} (h : ∀ x ∈ entries, Written x.2) :
    ∃ members, membersAsXml entries = some members ∧
      10 :: members = render (Doc.membersBody (membersToDoc (encodedNames entries))) ++ bytes "\n" := by
  induction entries with
  | nil => exact ⟨[], rfl, rfl⟩
  | cons entry entries ih =>
    obtain ⟨name, v⟩ := entry
    have hv : Written v := h (name, v) (by simp)
    obtain ⟨members, hmembers, htext⟩ := ih fun x hx => h x (by simp [hx])
    refine ⟨_, by rw [membersAsXml, hv.xml, hmembers]; rfl, ?_⟩
    rw [encodedNames, List.map_cons, membersToDoc, Doc.membersBody]
    simp only [render_cons, render_append, List.append_assoc, Piece.render, List.cons_append]
    rw [encodedNames] at htext
    rw [← htext]
    simp [bytes, Piece.tag, MEMBER_TAG, NAME_TAG, VALUE_TAG]

theorem Written.struct_text {entries : List (Bytes × RpcValue)} (h : ∀ x ∈ entries, Written x.2) :
    (RpcValue.struct entries).asXml = some (render (⟨[], .opening, VALUE_TAG⟩ ::
      (RpcValue.struct (encodedNames entries)).toDoc.body) ++ bytes "\n") := by
  obtain ⟨members, hmembers, htext⟩ := Written.members_text h
  have hbreak : bytes "<value>\n\t<struct>\n" ++ members =
      bytes "<value>\n\t<struct>" ++ 10 :: members := by simp [bytes]
  rw [asXml, hmembers, toDoc, Doc.body, bind_some, hbreak, htext]
  simp [render_append, Piece.render, Piece.tag, bytes, VALUE_TAG, STRUCT_TAG]

theorem Written.members {entries : List (Bytes × RpcValue)} (hnames : ∀ x ∈ entries, PlainText x.1 ∧ Inked x.1)
    (h : ∀ x ∈ entries, Written x.2) :
    Doc.MembersWellFormed (membersToDoc entries) ∧ Doc.MembersTyped (membersToDoc entries) ∧
      Doc.membersMeaning (membersToDoc entries) = entries ∧
      ((membersToDoc entries).map fun x => x.1.name.hash) = entries.map fun x => x.1.hash := by
  induction entries with
  | nil => exact ⟨trivial, trivial, rfl, rfl⟩
  | cons entry entries ih =>
    obtain ⟨name, v⟩ := entry
    have hv : Written v := h (name, v) (by simp)
    obtain ⟨hplain, hinked⟩ : PlainText name ∧ Inked name := hnames (name, v) (by simp)
    obtain ⟨hwf, htyped, hmeaning, hhash⟩ :=
      ih (fun x hx => hnames x (by simp [hx])) fun x hx => h x (by simp [hx])
    have hgap : Gap (bytes "\n\t\t") ∧ Gap (bytes "\n\t\t\t") := by decide
    have hslot : Slot.WellFormed ⟨bytes "\n\t\t", bytes "\n\t\t\t", name, bytes "\n\t\t\t", bytes "\n\t\t"⟩ :=
      ⟨hgap.1, hgap.2, hplain, hgap.2, hgap.1⟩
    exact ⟨⟨hslot, hv.wellFormed, hwf⟩, ⟨hinked, hv.typed, htyped⟩,
      by rw [membersToDoc, Doc.membersMeaning, hv.meaning, hmeaning],
      by rw [membersToDoc, List.map_cons, List.map_cons, hhash]⟩

/-- A struct is well formed and typed where its names are plain and its dictionary keeps them apart. -/
theorem Written.struct_doc {entries : List (Bytes × RpcValue)} (hnames : ∀ x ∈ entries, PlainText x.1 ∧ Inked x.1)
    (h : ∀ x ∈ entries, Written x.2) (hdistinct : KeyedList.Distinct Hasher.hash entries) :
    (RpcValue.struct entries).toDoc.WellFormed ∧ (RpcValue.struct entries).toDoc.Typed ∧
      (RpcValue.struct entries).toDoc.meaning = .struct entries := by
  obtain ⟨hwf, htyped, hmeaning, hhash⟩ := Written.members hnames h
  refine ⟨⟨by decide, hwf, by decide, by decide⟩, ⟨htyped, ?_⟩, by rw [toDoc, Doc.meaning, hmeaning]⟩
  rw [hhash, List.Nodup, List.pairwise_map]
  exact hdistinct.imp fun h he => h (hash_eq_iff.mpr he)

theorem Sendable.written {v : RpcValue} (h : Sendable v) : Written v := by
  induction h with
  | ofInt n =>
    refine Written.scalar (s := .int) (Clean.val n) rfl rfl ?_
    have hint : Bytes.int (Bytes.val n 10) 10 = n := int_val 10 (by decide) n
    simp [Scalar.make, readInt, hint]
  | ofBool b =>
    cases b
    · exact Written.scalar (s := .boolean) ⟨by decide, by decide⟩ rfl rfl rfl
    · exact Written.scalar (s := .boolean) ⟨by decide, by decide⟩ rfl rfl rfl
  | ofString hs =>
    refine Written.scalar (s := .string) hs rfl rfl ?_
    simp [Scalar.make, readString, hs.decode, RpcValue.ofString]
  | array _ ih =>
    obtain ⟨⟨items, hitems, htext⟩, hwf, htyped, hmeaning⟩ := Written.items ih
    refine ⟨?_, ⟨by decide, by decide, hwf, by decide, by decide, by decide⟩, htyped, ?_⟩
    · have hbreak : bytes "<value>\n\t<array>\n\t\t<data>\n" ++ items =
          bytes "<value>\n\t<array>\n\t\t<data>" ++ 10 :: items := by simp [bytes]
      rw [asXml, hitems, toDoc, Doc.body, bind_some, hbreak, htext]
      simp [render_append, Piece.render, Piece.tag, bytes, VALUE_TAG, ARRAY_TAG, DATA_TAG]
    · rw [toDoc, Doc.meaning, hmeaning]
  | struct hnames _ hdistinct ih =>
    obtain ⟨hwf, htyped, hmeaning⟩ :=
      Written.struct_doc (fun x hx => ⟨(hnames x hx).plainText, (hnames x hx).inked⟩) ih hdistinct
    have htext := Written.struct_text ih
    rw [encodedNames_clean hnames] at htext
    exact ⟨htext, hwf, htyped, hmeaning⟩

/-- `FromXml` reads a typed document from the start of a text. -/
theorem fromXml_text {d : Doc} {xml : Bytes} (hwf : d.WellFormed) (ht : d.Typed)
    (hxml : xml = render (⟨[], .opening, VALUE_TAG⟩ :: d.body) ++ bytes "\n") :
    ∃ p p', (Parser.ofString xml).getNextElement = .ok (true, p) ∧ FromXml p = .ok (d.meaning, p') ∧
      p'.element = closedValue ∧ Reads p' [] (bytes "\n") := by
  have hstart : Reads (Parser.ofString xml) (⟨[], .opening, VALUE_TAG⟩ :: d.body) (bytes "\n") := ⟨rfl, hxml⟩
  obtain ⟨p, hp, hr, he⟩ := getNextElement_spec hstart (Piece.plain_of_gap (by decide) (by decide))
  obtain ⟨p', hp', hr', he'⟩ := fromXml_typed hwf ht he (show Reads p (d.body ++ []) _ by rwa [List.append_nil])
  exact ⟨p, p', hp, hp', he', hr'⟩

end RpcValue

end Srl
