import Srl.RpcReader
import Srl.XmlTagSafe
import Srl.Audit

namespace Srl

open Bytes Session XML

namespace XmlRpc

/-- What the handler does that can go wrong without an exception: `getNextElement` of a parser, whose element
is then used unchecked or not, a message of some length to the logger, and `asXml` of a value. -/
inductive Call
  | next (parser : Parser) (used : Bool)
  | log (length : Nat)
  | write (value : RpcValue)

/-- An answer to a request. -/
structure Response where
  content : Bytes
  content_type : Bytes
deriving DecidableEq

structure State where
  parser : Parser
  calls : List Call
  responses : List Response

def State.record (s : State) (call : Call) : State := { s with calls := s.calls ++ [call] }

/-- How a run of the handler can end but by returning. A crash is the use of a null pointer or of memory
out of bounds. -/
inductive Failure
  | exception (message : Bytes)
  | unknown
  | crash
  | endless
deriving DecidableEq

abbrev Run (α : Type) := Method State Failure α

/-- `String::Format` with strings for `%s`. -/
def Format : Bytes → List Bytes → Bytes
  | 37 :: 115 :: fmt, arg :: args => cstr arg ++ Format fmt args
  | c :: fmt, args => c :: Format fmt args
  | [], _ => []

def Failure.ofStop : Stop → Failure
  | .InvalidXML message argument => .exception (Format (bytes message) [argument])
  | .endless => .endless
  | .fault => .crash

def Failure.ofDict : DictException → Failure
  | .InvalidArgumentException message | .NullPointerException message => .exception (bytes message)

def Failure.ofRpc : RpcStop → Failure
  | .xml e => .ofStop e
  | .IOException message => .exception (bytes message)
  | .dictionary e => .ofDict e

/-- `throw IOException`. -/
def throwMessage {α : Type} (message : Bytes) : Run α := throw (.exception message)

/-- A call on the parser. -/
def onParser {α : Type} (f : Parser → Except Stop (α × Parser)) : Run α := fun s =>
  match f s.parser with
  | .ok (a, p) => (.ok a, { s with parser := p })
  | .error e => (.error (.ofStop e), s)

/-- `getNextElement`. -/
def next : Run Bool := do
  modify fun s => s.record (.next s.parser false)
  onParser Parser.getNextElement

/-- `element = getNextElement()`, where `element` is used next without a check. -/
def nextUsed : Run Unit := do
  modify fun s => s.record (.next s.parser true)
  if ← onParser Parser.getNextElement then pure () else throw .crash

/-- `value.asXml()`, which may follow a null pointer. -/
def asXml (value : RpcValue) : Run Bytes := do
  modify (·.record (.write value))
  match value.asXml with
  | some xml => pure xml
  | none => throw .crash

def hasContent : Run Bool := onParser Parser.hasContent

def getContent : Run Bytes := onParser Parser.getContent

/-- `element->name() == tag`. -/
def named (tag : Bytes) : Run Bool := do pure ((← get).parser.element.named tag)

def isClosing : Run Bool := do pure (← get).parser.element.is_closing

def require (condition : Bool) (message : String) : Run Unit :=
  if condition then pure () else throwMessage (bytes message)

/-! `FromXml` and the constructors that it calls, with the calls on the parser recorded. -/

def finish (v : RpcValue) : Run RpcValue := do
  let _ ← next
  pure v

def scalarBranch (make : Bytes → Option RpcValue) (blank : RpcValue) : Run RpcValue := do
  if ← hasContent then do
    let text ← getContent
    match make text with
    | some v => do
      let _ ← next
      finish v
    | none => pure .NULL
  else do
    let _ ← next
    finish blank

def arrayBegin : Run Unit := do
  let found ← next
  let data ← named DATA_TAG
  require (found && data) "array has invalid xml, missing data tag"

def arrayEnd : Run Unit := do
  let data ← named DATA_TAG
  let closing ← isClosing
  require (data && closing) "array has invalid xml, missing closing data tag"
  let found ← next
  let array ← named ARRAY_TAG
  let closing ← isClosing
  require (found && array && closing) "array has invalid xml, missing closing array tag"

def memberName : Run Bytes := do
  let found ← next
  let name ← named NAME_TAG
  let closing ← isClosing
  require (found && name && !closing) "struct has invalid xml, missing name"
  let content ← hasContent
  require content "struct name field has no data in xml"
  let mname ← getContent
  let found ← next
  let name ← named NAME_TAG
  let closing ← isClosing
  require (found && name && closing) "struct has invalid xml, missing name close"
  let found ← next
  let value ← named VALUE_TAG
  require (found && value) "struct has invalid xml, missing name"
  pure mname

def readBinary : Run RpcValue := do
  let content ← hasContent
  require content "base64 tag has no content"
  let text ← getContent
  let base64 ← named BASE64_TAG
  let closing ← isClosing
  require (base64 && closing) "base64 tag has no end tag"
  pure (.binary [] (Base64.decode text))

def readType (array : Run (List RpcValue)) (struct : Run (List (Bytes × RpcValue))) : Run RpcValue := do
  let e := (← get).parser.element
  if e.named STRING_TAG then scalarBranch Parser.readString (.ofString [])
  else if e.named INT_TAG || e.named I4_TAG then scalarBranch Parser.readInt .NULL
  else if e.named DOUBLE_TAG then scalarBranch Parser.readDouble .NULL
  else if e.named BOOLEAN_TAG then scalarBranch Parser.readBoolean .NULL
  else if e.named DATETIME_TAG then scalarBranch Parser.readDateTime .NULL
  else if e.named ARRAY_TAG then do
    arrayBegin
    let values ← array
    arrayEnd
    finish (.array values)
  else if e.named STRUCT_TAG then do
    let entries ← struct
    finish (.struct entries)
  else if e.named BASE64_TAG then do
    let v ← readBinary
    finish v
  else finish .NULL

mutual

def readValue : Nat → Run RpcValue
  | 0 => throw .endless
  | fuel + 1 => do
    if ← named VALUE_TAG then do
      if ← hasContent then do
        let text ← getContent
        pure (.ofString (decode text))
      else do
        let found ← next
        require found "invalid RPC XML format no tag"
        readType (arrayLoop fuel []) (structLoop fuel [])
    else pure .NULL

def arrayLoop : Nat → List RpcValue → Run (List RpcValue)
  | 0, _ => throw .endless
  | fuel + 1, array => do
    let found ← next
    let value ← named VALUE_TAG
    let closing ← isClosing
    if found && value && !closing then do
      let v ← readValue fuel
      arrayLoop fuel (array ++ [v])
    else pure array

def structLoop : Nat → List (Bytes × RpcValue) → Run (List (Bytes × RpcValue))
  | 0, _ => throw .endless
  | fuel + 1, struct => do
    let found ← next
    let member ← named MEMBER_TAG
    let closing ← isClosing
    if found && member && !closing then do
      let mname ← memberName
      let v ← readValue fuel
      match RpcStructValue.set struct mname v with
      | .ok struct => do
        let _ ← next
        structLoop fuel struct
      | .error e => throw (.ofRpc e)
    else pure struct

end

/-- `RpcValue::FromXml`. -/
def fromXml : Run RpcValue := do readValue ((← get).parser.left + 1)

end XmlRpc

end Srl
