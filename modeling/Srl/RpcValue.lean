import Srl.DictionaryStrings
import Srl.XmlCoding
import Srl.DateTime
import Srl.Base64

namespace Srl

open Bytes

def VALUE_TAG : Bytes := bytes "value"
def BOOLEAN_TAG : Bytes := bytes "boolean"
def DOUBLE_TAG : Bytes := bytes "double"
def INT_TAG : Bytes := bytes "int"
def I4_TAG : Bytes := bytes "i4"
def STRING_TAG : Bytes := bytes "string"
def DATETIME_TAG : Bytes := bytes "dateTime.iso8601"
def BASE64_TAG : Bytes := bytes "base64"
def ARRAY_TAG : Bytes := bytes "array"
def DATA_TAG : Bytes := bytes "data"
def STRUCT_TAG : Bytes := bytes "struct"
def MEMBER_TAG : Bytes := bytes "member"
def NAME_TAG : Bytes := bytes "name"

/-- `RpcValue::Type`. -/
inductive RpcType
  | TypeInvalid
  | TypeBoolean
  | TypeInt
  | TypeDouble
  | TypeString
  | TypeDateTime
  | TypeBase64
  | TypeNull
  | TypeArray
  | TypeStruct
  deriving DecidableEq, Repr

/-- `GetTag`; `none` is the null pointer. -/
def GetTag : RpcType → Option Bytes
  | .TypeInt => some INT_TAG
  | .TypeDouble => some DOUBLE_TAG
  | .TypeBoolean => some BOOLEAN_TAG
  | .TypeString => some STRING_TAG
  | .TypeDateTime => some DATETIME_TAG
  | .TypeArray => some ARRAY_TAG
  | .TypeStruct => some STRUCT_TAG
  | .TypeBase64 => some BASE64_TAG
  | .TypeInvalid | .TypeNull => none

/-- The union of a scalar. A `bool` is the low byte of the cleared word, which then reads
1 or 0; the number that a double text stands for stays that text. -/
inductive Payload
  | NULL
  | asInt (n : Int32)
  | asDouble (text : Bytes)
  | asDateTime (dt : DateTime)
  deriving DecidableEq, Repr

/-- A pointer to an `RpcValue` and what it owns. A struct lists the bindings of its
dictionary in the order of their insertion. -/
inductive RpcValue
  | NULL
  | scalar (type : RpcType) (str : Bytes) (value : Payload)
  | array (array : List RpcValue)
  | struct (struct : List (Bytes × RpcValue))
  | binary (str : Bytes) (bytes : Bytes)

namespace RpcValue

def ofBool (value : Bool) : RpcValue :=
  .scalar .TypeBoolean (bytes (if value then "1" else "0")) (.asInt (if value then 1 else 0))

def ofInt (value : Int32) : RpcValue := .scalar .TypeInt (Bytes.val value 10) (.asInt value)

def ofString (value : Bytes) : RpcValue := .scalar .TypeString value .NULL

def ofDateTime (value : DateTime) : RpcValue :=
  .scalar .TypeDateTime (strftime value.toTM) (.asDateTime value.copy)

/-- An `RpcBinaryValue` whose buffer holds the bytes. -/
def ofBinary (value : Bytes) : RpcValue := .binary [] value

mutual

/-- `asXml`; `none` where a null pointer is followed. -/
def asXml : RpcValue → Option Bytes
  | .NULL => none
  | .scalar type str _ => do
    let tag ← GetTag type
    some (bytes "<value><" ++ tag ++ bytes ">" ++ XML.encode str ++ bytes "</" ++ tag ++ bytes "></value>\n")
  | .array values => do
    let items ← itemsAsXml values
    some (bytes "<value>\n\t<array>\n\t\t<data>\n" ++ items ++ bytes "\t\t</data>\n\t\t</array>\n</value>\n")
  | .struct entries => do
    let members ← membersAsXml entries
    some (bytes "<value>\n\t<struct>\n" ++ members ++ bytes "\t</struct>\n</value>\n")
  | .binary str value =>
    some (bytes "<value><base64>" ++ (str ++ Base64.encode value) ++ bytes "</base64></value>\n")

/-- The loop of `RpcArrayValue::asXml`. -/
def itemsAsXml : List RpcValue → Option Bytes
  | [] => some []
  | v :: values => do
    let item ← v.asXml
    let items ← itemsAsXml values
    some (item ++ items)

/-- The loop of `RpcStructValue::asXml`. -/
def membersAsXml : List (Bytes × RpcValue) → Option Bytes
  | [] => some []
  | (name, v) :: entries => do
    let member ← v.asXml
    let members ← membersAsXml entries
    some (bytes "\t\t<member>\n\t\t\t<name>" ++ XML.encode name ++ bytes "</name>\n\t\t\t" ++ member ++
      bytes "\t\t</member>\n" ++ members)

end

end RpcValue

/-- Why `FromXml` does not return. -/
inductive RpcStop
  | xml (e : XML.Stop)
  | IOException (message : String)
  | dictionary (e : DictException)
  deriving DecidableEq, Repr

/-- Exceptions of the parser pass through. -/
def orStop {α : Type} : Except XML.Stop α → Except RpcStop α
  | .ok a => .ok a
  | .error e => .error (.xml e)

def expect (condition : Bool) (message : String) : Except RpcStop Unit :=
  if condition then .ok () else .error (.IOException message)

/-- `RpcStructValue::set`, the `add` of the dictionary. -/
def RpcStructValue.set (struct : List (Bytes × RpcValue)) (name : Bytes) (value : RpcValue) :
    Except RpcStop (List (Bytes × RpcValue)) :=
  if KeyedList.has Hasher.hash struct (Hasher.hash name) then .error (.dictionary Dictionary.alreadyContains)
  else .ok (struct ++ [(name, value)])

namespace XML

/-- `name() == tag`. -/
def Element.named (e : Element) (tag : Bytes) : Bool := same e.name tag

namespace Parser

/-- The end of `FromXml`: the next element should be the end value tag. -/
def finish (v : RpcValue) (p : Parser) : Except RpcStop (RpcValue × Parser) := do
  let (_, p) ← orStop p.getNextElement
  .ok (v, p)

/-- The branches of the types that have their value in the text of the tag; where the
text is refused, `FromXml` returns at once. -/
def scalarBranch (make : Bytes → Option RpcValue) (blank : RpcValue) (p : Parser) :
    Except RpcStop (RpcValue × Parser) := do
  let (content, p) ← orStop p.hasContent
  if content then do
    let (text, p) ← orStop p.getContent
    match make text with
    | some v => do
      let (_, p) ← orStop p.getNextElement
      finish v p
    | none => .ok (.NULL, p)
  else do
    let (_, p) ← orStop p.getNextElement
    finish blank p

def readString (text : Bytes) : Option RpcValue := some (.ofString (decode text))

def readInt (text : Bytes) : Option RpcValue := some (.scalar .TypeInt text (.asInt (Bytes.int text 10)))

def readDouble (text : Bytes) : Option RpcValue := some (.scalar .TypeDouble text (.asDouble text))

def readBoolean (text : Bytes) : Option RpcValue :=
  some (.scalar .TypeBoolean text (.asInt (Bytes.int text 10)))

def readDateTime (text : Bytes) : Option RpcValue := do
  let t ← scanDateTime text
  some (.scalar .TypeDateTime text (.asDateTime (.ofTm { t with tm_year := t.tm_year - 1900, tm_isdst := -1 })))

/-- The `data` tag in front of the loop of `RpcArrayValue(parser)`. -/
def arrayBegin (p : Parser) : Except RpcStop Parser := do
  let (found, p) ← orStop p.getNextElement
  expect (found && p.element.named DATA_TAG) "array has invalid xml, missing data tag"
  .ok p

/-- The closing tags behind the loop of `RpcArrayValue(parser)`. -/
def arrayEnd (p : Parser) : Except RpcStop Parser := do
  expect (p.element.named DATA_TAG && p.element.is_closing) "array has invalid xml, missing closing data tag"
  let (found, p) ← orStop p.getNextElement
  expect (found && p.element.named ARRAY_TAG && p.element.is_closing)
    "array has invalid xml, missing closing array tag"
  .ok p

/-- The name of a member in `RpcStructValue(parser)`, up to the value tag. -/
def memberName (p : Parser) : Except RpcStop (Bytes × Parser) := do
  let (found, p) ← orStop p.getNextElement
  expect (found && p.element.named NAME_TAG && !p.element.is_closing) "struct has invalid xml, missing name"
  let (content, p) ← orStop p.hasContent
  expect content "struct name field has no data in xml"
  let (mname, p) ← orStop p.getContent
  let (found, p) ← orStop p.getNextElement
  expect (found && p.element.named NAME_TAG && p.element.is_closing)
    "struct has invalid xml, missing name close"
  let (found, p) ← orStop p.getNextElement
  expect (found && p.element.named VALUE_TAG) "struct has invalid xml, missing name"
  .ok (mname, p)

/-- `RpcBinaryValue(parser)`. -/
def readBinary (p : Parser) : Except RpcStop (RpcValue × Parser) := do
  let (content, p) ← orStop p.hasContent
  expect content "base64 tag has no content"
  let (text, p) ← orStop p.getContent
  expect (p.element.named BASE64_TAG && p.element.is_closing) "base64 tag has no end tag"
  .ok (.binary [] (Base64.decode text), p)

/-- The branches of `FromXml` on the element behind the value tag. -/
def readType (array : Parser → Except RpcStop (List RpcValue × Parser))
    (struct : Parser → Except RpcStop (List (Bytes × RpcValue) × Parser)) (p : Parser) :
    Except RpcStop (RpcValue × Parser) :=
  if p.element.named STRING_TAG then scalarBranch readString (.ofString []) p
  else if p.element.named INT_TAG || p.element.named I4_TAG then scalarBranch readInt .NULL p
  else if p.element.named DOUBLE_TAG then scalarBranch readDouble .NULL p
  else if p.element.named BOOLEAN_TAG then scalarBranch readBoolean .NULL p
  else if p.element.named DATETIME_TAG then scalarBranch readDateTime .NULL p
  else if p.element.named ARRAY_TAG then do
    let p ← arrayBegin p
    let (values, p) ← array p
    let p ← arrayEnd p
    finish (.array values) p
  else if p.element.named STRUCT_TAG then do
    let (entries, p) ← struct p
    finish (.struct entries) p
  else if p.element.named BASE64_TAG then do
    let (v, p) ← readBinary p
    finish v p
  else finish .NULL p

mutual

/-- `RpcValue::FromXml`. -/
def readValue : Nat → Parser → Except RpcStop (RpcValue × Parser)
  | 0, _ => .error (.xml .endless)
  | fuel + 1, p =>
    if p.element.named VALUE_TAG then do
      let (content, p) ← orStop p.hasContent
      if content then do
        let (text, p) ← orStop p.getContent
        .ok (.ofString (decode text), p)
      else do
        let (found, p) ← orStop p.getNextElement
        expect found "invalid RPC XML format no tag"
        readType (arrayLoop fuel []) (structLoop fuel []) p
    else .ok (.NULL, p)

/-- The loop of `RpcArrayValue(parser)`. -/
def arrayLoop : Nat → List RpcValue → Parser → Except RpcStop (List RpcValue × Parser)
  | 0, _, _ => .error (.xml .endless)
  | fuel + 1, array, p => do
    let (found, p) ← orStop p.getNextElement
    if found && p.element.named VALUE_TAG && !p.element.is_closing then do
      let (v, p) ← readValue fuel p
      arrayLoop fuel (array ++ [v]) p
    else .ok (array, p)

/-- The loop of `RpcStructValue(parser)`. -/
def structLoop : Nat → List (Bytes × RpcValue) → Parser →
    Except RpcStop (List (Bytes × RpcValue) × Parser)
  | 0, _, _ => .error (.xml .endless)
  | fuel + 1, struct, p => do
    let (found, p) ← orStop p.getNextElement
    if found && p.element.named MEMBER_TAG && !p.element.is_closing then do
      let (mname, p) ← memberName p
      let (v, p) ← readValue fuel p
      let struct ← RpcStructValue.set struct mname v
      let (_, p) ← orStop p.getNextElement
      structLoop fuel struct p
    else .ok (struct, p)

end

end Parser

end XML

/-- `RpcValue::FromXml`. Every round of its loops takes an element. -/
def RpcValue.FromXml (p : XML.Parser) : Except RpcStop (RpcValue × XML.Parser) := p.readValue (p.left + 1)

end Srl
