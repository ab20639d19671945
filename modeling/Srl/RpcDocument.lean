import Srl.RpcValue

namespace Srl

open Bytes XML

/-- The types that `FromXml` reads from the text of their tag. -/
inductive Scalar
  | string
  | int
  | i4
  | double
  | boolean
  | dateTime
  deriving DecidableEq, Repr

namespace Scalar

def tag : Scalar → Bytes
  | string => STRING_TAG
  | int => INT_TAG
  | i4 => I4_TAG
  | double => DOUBLE_TAG
  | boolean => BOOLEAN_TAG
  | dateTime => DATETIME_TAG

def make : Scalar → Bytes → Option RpcValue
  | string => Parser.readString
  | int | i4 => Parser.readInt
  | double => Parser.readDouble
  | boolean => Parser.readBoolean
  | dateTime => Parser.readDateTime

def blank : Scalar → RpcValue
  | string => .ofString []
  | _ => .NULL

end Scalar

/-- The name of a struct member, and the gaps in front of its tags. -/
structure Slot where
  gap : Bytes
  nameGap : Bytes
  name : Bytes
  valueGap : Bytes
  endGap : Bytes
  deriving DecidableEq, Repr

/-- What stands behind the `value` tag of an XML-RPC value: a type tag and its content, an
empty type tag (`none` is the struct) or a text without a type. The gaps are the texts in
front of the tags. -/
inductive Doc
  | scalar (type : Scalar) (g₁ text g₂ : Bytes)
  | empty (type : Option Scalar) (g₁ g₂ : Bytes)
  | untyped (text : Bytes)
  | emptyData (g₁ g₂ g₃ g₄ : Bytes)
  | array (g₁ g₂ : Bytes) (items : List (Bytes × Doc)) (g₃ g₄ g₅ : Bytes)
  | struct (g₁ : Bytes) (members : List (Slot × Doc)) (g₂ g₃ : Bytes)

def Gap (g : Bytes) : Prop := ∀ c ∈ g, isspace c

instance (g : Bytes) : Decidable (Gap g) := by unfold Gap; infer_instance

/-- A text with more than white space. -/
def Inked (text : Bytes) : Prop := text.any (!isspace ·)

instance (text : Bytes) : Decidable (Inked text) := by unfold Inked; infer_instance

structure Slot.WellFormed (s : Slot) : Prop where
  gap : Gap s.gap
  nameGap : Gap s.nameGap
  name : PlainText s.name
  valueGap : Gap s.valueGap
  endGap : Gap s.endGap

namespace Doc

def emptyTag (type : Option Scalar) : Bytes := (type.map Scalar.tag).getD STRUCT_TAG

mutual

/-- The tags behind the opening `value` tag, up to the closing one. -/
def body : Doc → List Piece
  | scalar type g₁ text g₂ =>
    [⟨g₁, .opening, type.tag⟩, ⟨text, .closing, type.tag⟩, ⟨g₂, .closing, VALUE_TAG⟩]
  | empty type g₁ g₂ => [⟨g₁, .empty, emptyTag type⟩, ⟨g₂, .closing, VALUE_TAG⟩]
  | untyped text => [⟨text, .closing, VALUE_TAG⟩]
  | emptyData g₁ g₂ g₃ g₄ =>
    [⟨g₁, .opening, ARRAY_TAG⟩, ⟨g₂, .empty, DATA_TAG⟩, ⟨g₃, .closing, ARRAY_TAG⟩, ⟨g₄, .closing, VALUE_TAG⟩]
  | array g₁ g₂ items g₃ g₄ g₅ =>
    ⟨g₁, .opening, ARRAY_TAG⟩ :: ⟨g₂, .opening, DATA_TAG⟩ ::
      (itemsBody items ++ [⟨g₃, .closing, DATA_TAG⟩, ⟨g₄, .closing, ARRAY_TAG⟩, ⟨g₅, .closing, VALUE_TAG⟩])
  | struct g₁ members g₂ g₃ =>
    ⟨g₁, .opening, STRUCT_TAG⟩ ::
      (membersBody members ++ [⟨g₂, .closing, STRUCT_TAG⟩, ⟨g₃, .closing, VALUE_TAG⟩])

def itemsBody : List (Bytes × Doc) → List Piece
  | [] => []
  | (g, d) :: items => ⟨g, .opening, VALUE_TAG⟩ :: (d.body ++ itemsBody items)

def membersBody : List (Slot × Doc) → List Piece
  | [] => []
  | (s, d) :: members =>
    ⟨s.gap, .opening, MEMBER_TAG⟩ :: ⟨s.nameGap, .opening, NAME_TAG⟩ :: ⟨s.name, .closing, NAME_TAG⟩ ::
      ⟨s.valueGap, .opening, VALUE_TAG⟩ :: (d.body ++ ⟨s.endGap, .closing, MEMBER_TAG⟩ :: membersBody members)

end

mutual

/-- The value that the document stands for. -/
def meaning : Doc → RpcValue
  | scalar type _ text _ => if Inked text then (type.make text).getD .NULL else type.blank
  | empty (some type) _ _ => type.blank
  | empty none _ _ => .struct []
  | untyped text => .ofString (decode text)
  | emptyData _ _ _ _ => .array []
  | array _ _ items _ _ _ => .array (itemsMeaning items)
  | struct _ members _ _ => .struct (membersMeaning members)

def itemsMeaning : List (Bytes × Doc) → List RpcValue
  | [] => []
  | (_, d) :: items => d.meaning :: itemsMeaning items

def membersMeaning : List (Slot × Doc) → List (Bytes × RpcValue)
  | [] => []
  | (s, d) :: members => (s.name, d.meaning) :: membersMeaning members

end

mutual

/-- White space between the tags, and texts without markup that their types accept. -/
def WellFormed : Doc → Prop
  | scalar type g₁ text g₂ => Gap g₁ ∧ PlainText text ∧ Gap g₂ ∧ (Inked text → (type.make text).isSome)
  | empty _ g₁ g₂ => Gap g₁ ∧ Gap g₂
  | untyped text => PlainText text
  | emptyData g₁ g₂ g₃ g₄ => Gap g₁ ∧ Gap g₂ ∧ Gap g₃ ∧ Gap g₄
  | array g₁ g₂ items g₃ g₄ g₅ => Gap g₁ ∧ Gap g₂ ∧ ItemsWellFormed items ∧ Gap g₃ ∧ Gap g₄ ∧ Gap g₅
  | struct g₁ members g₂ g₃ => Gap g₁ ∧ MembersWellFormed members ∧ Gap g₂ ∧ Gap g₃

def ItemsWellFormed : List (Bytes × Doc) → Prop
  | [] => True
  | (g, d) :: items => Gap g ∧ d.WellFormed ∧ ItemsWellFormed items

def MembersWellFormed : List (Slot × Doc) → Prop
  | [] => True
  | (s, d) :: members => s.WellFormed ∧ d.WellFormed ∧ MembersWellFormed members

end

mutual

/-- Every value has its type tag, no tag is an empty one, and the member names of a struct
are not blank and have distinct hashes. -/
def Typed : Doc → Prop
  | scalar _ _ _ _ => True
  | empty _ _ _ => False
  | untyped _ => False
  | emptyData _ _ _ _ => False
  | array _ _ items _ _ _ => ItemsTyped items
  | struct _ members _ _ => MembersTyped members ∧ (members.map fun x => x.1.name.hash).Nodup

def ItemsTyped : List (Bytes × Doc) → Prop
  | [] => True
  | (_, d) :: items => d.Typed ∧ ItemsTyped items

def MembersTyped : List (Slot × Doc) → Prop
  | [] => True
  | (s, d) :: members => Inked s.name ∧ d.Typed ∧ MembersTyped members

end

end Doc

end Srl
