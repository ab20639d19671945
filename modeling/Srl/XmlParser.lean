import Srl.Bytes

namespace Srl

namespace XML

/-- Why a call on a parser does not return: an `Errors::InvalidXML`, with the format of its
message and the text put into it, a loop that goes on forever, or a write out of bounds. -/
inductive Stop
  | InvalidXML (message : String) (argument : Bytes)
  | endless
  | fault
  deriving DecidableEq, Repr

/-- `XML::Parser::Element`, with the data that reading elements and contents uses. -/
structure Element where
  name : Bytes
  attributes : Bytes
  content : Bytes
  is_closing : Bool
  has_attributes : Bool
  apos : Nat
  deriving DecidableEq, Repr

/-- `XML::Parser`. The text that an XML file still has to give comes in the pieces that
`TextFile::read` will return; a parser of a string has no file. -/
structure Parser where
  element : Element
  xml_file : Option (List Bytes)
  xml : Bytes
  pos : Nat
  deriving DecidableEq, Repr

def Element.clear (e : Element) : Element := { e with name := [], apos := 0, attributes := [], content := [] }

namespace Parser

def ofString (xml : Bytes) : Parser := ⟨⟨[], [], [], false, false, 0⟩, none, xml, 0⟩

/-- Characters that were not looked at yet, in the buffer and in the file. -/
def left (p : Parser) : Nat := (p.xml.length - p.pos) + ((p.xml_file.getD []).map List.length).sum

/-- `_getXML(false)`: the next piece of the file takes the place of the buffer. -/
def getXML (p : Parser) : Bool × Parser :=
  match p.xml_file with
  | some (piece :: rest) => (0 < piece.length, { p with xml_file := some rest, xml := piece, pos := 0 })
  | _ => (false, { p with xml := [], pos := 0 })

/-- The number of rounds that a loop over `_getXML` can make. -/
def pieces (p : Parser) : Nat := (p.xml_file.getD []).length + 1

/-- Move `_pos` behind the next `<`; false at the end of the data. -/
def openTag : Nat → Parser → Except Stop (Bool × Parser)
  | 0, _ => .error .endless
  | fuel + 1, p =>
    match p.xml.find 60 p.pos with
    | some pos => .ok (true, { p with pos := pos + 1 })
    | none =>
      match p.getXML with
      | (true, p) => openTag fuel p
      | (false, p) => .ok (false, p)

/-- Collect the text up to the next `>` in the name of the element. -/
def closeTag : Nat → Parser → Except Stop Parser
  | 0, _ => .error .endless
  | fuel + 1, p =>
    match p.xml.find 62 p.pos with
    | some epos =>
      let name := p.element.name ++ p.xml.substr p.pos (epos - p.pos)
      .ok { p with element := { p.element with name := name }, pos := epos + 1 }
    | none =>
      let name := p.element.name ++ p.xml.substrFrom p.pos
      if name.length > 124 then .error (.InvalidXML "tag name exceeds allowed length: '%s'" name)
      else
        match getXML { p with element := { p.element with name := name } } with
        | (true, p) => closeTag fuel p
        | (false, _) => .error (.InvalidXML "can not find end to tag: '%s'" name)

/-- The slash or the question mark of a tag. A name that is only a question mark is
truncated to a length of -1. -/
def markElement (e : Element) : Except Stop Element :=
  if e.name.charAt 0 = 47 then .ok { e with is_closing := true, name := e.name.drop 1 }
  else if e.name.getLast? = some 47 then .ok { e with is_closing := true, name := e.name.dropLast }
  else if e.name.charAt 0 = 63 then
    if e.name.length = 1 then .error .fault else .ok { e with name := (e.name.drop 1).dropLast }
  else .ok { e with is_closing := false }

/-- The three replacements in the attribute text. The blank of the first one is turned
into an empty `String(uint32 reserve)`. -/
def blankBreaks (attributes : Bytes) : Except Stop Bytes :=
  match attributes.replace (bytes "\r\n") [] with
  | some s => .ok ((s.replaceChar 10 32).replaceChar 13 32)
  | none => .error .endless

/-- Cut the attributes off the name. -/
def splitAttributes (e : Element) : Except Stop Element :=
  match e.name.find 61 0 with
  | some (_ + 1) =>
    match e.name.find 32 0 with
    | none => .error (.InvalidXML "failed to parse tag attributes: '%s'" e.name)
    | some pos => do
      let attributes ← blankBreaks (e.name.substrFrom (pos + 1))
      .ok { e with has_attributes := true, attributes := attributes, name := e.name.take pos }
  | _ => .ok { e with has_attributes := false }

def parseElement (p : Parser) : Except Stop Parser := do
  let p ← closeTag p.pieces p
  let e ← markElement p.element
  let e ← splitAttributes e
  .ok { p with element := e }

/-- `getNextElement`; the flag is false where it returns `NULL`. -/
def getNextElement (p : Parser) : Except Stop (Bool × Parser) :=
  let p := { p with element := p.element.clear }
  match if p.xml.length ≤ p.pos then p.getXML else (true, p) with
  | (false, p) => .ok (false, p)
  | (true, p) => do
    let (found, p) ← openTag p.pieces p
    if found then do
      let p ← parseElement p
      .ok (true, p)
    else .ok (false, p)

/-- The loop of `hasContent`. -/
def contentLoop : Nat → Parser → Except Stop (Bool × Parser)
  | 0, _ => .error .endless
  | fuel + 1, p =>
    if p.xml.length = 0 then .ok (false, p)
    else
      match (p.xml.drop p.pos).dropWhile isspace with
      | c :: _ => .ok (c ≠ 60, p)
      | [] =>
        match p.getXML with
        | (true, p) => contentLoop fuel p
        | (false, p) => .error (.InvalidXML "could not detect content, no end tag: '%s'" p.element.name)

def hasContent (p : Parser) : Except Stop (Bool × Parser) :=
  if 0 < p.element.content.length then .ok (true, p)
  else if p.element.is_closing then .ok (false, p)
  else contentLoop p.pieces p

/-- The loop of `parseContent`: the text up to the next `<`, which `_pos` stays in front of. -/
def parseContent : Nat → Parser → Except Stop Parser
  | 0, _ => .error .endless
  | fuel + 1, p =>
    match p.xml.find 60 p.pos with
    | some epos =>
      let content := p.element.content ++ p.xml.substr p.pos (epos - p.pos)
      .ok { p with element := { p.element with content := content } }
    | none =>
      let content := p.element.content ++ p.xml.substrFrom p.pos
      match getXML { p with element := { p.element with content := content } } with
      | (true, p) => parseContent fuel p
      | (false, p) => .error (.InvalidXML "could not parse content, no end tag: '%s'" p.element.name)

/-- `Element::getContent`. -/
def getContent (p : Parser) : Except Stop (Bytes × Parser) :=
  if 0 < p.element.content.length then .ok (p.element.content, p)
  else do
    let p ← parseContent p.pieces p
    .ok (p.element.content, p)

end Parser

end XML

end Srl
