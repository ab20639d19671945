import Srl.TextFile
import Srl.DictionaryIteration
import Srl.DictionaryStrings

namespace Srl

open Bytes KeyedList Dictionary

/-- A section, under the name that it was made with. -/
structure IniSection where
  name : Bytes
  properties : Dictionary Bytes Bytes

/-- The sections stand on a heap; an address from `brk` on has never been allocated. -/
structure IniParser where
  filename : Bytes
  sections : Dictionary Bytes Ptr
  heap : Ptr → Option IniSection
  brk : Ptr

namespace IniParser

/-- `dictionary[key]`, read as a value. -/
def valueAt {Value : Type} [Inhabited Value] (d : Dictionary Bytes Value) (key : Bytes) :
    Option (Value × Dictionary Bytes Value) := do
  let (entry, d) ← d.index key
  let e ← d.heap entry
  some (e.value, d)

/-- `new Section(name)`. -/
def newSection (p : IniParser) (name : Bytes) : IniParser :=
  { p with heap := Function.update p.heap p.brk (some ⟨name, Dictionary.empty⟩), brk := p.brk + 1 }

def getSection (p : IniParser) (name : Bytes) : Option (Ptr × IniParser) := do
  let has ← p.sections.hasKey name
  let sections ← if has then some p.sections else p.sections.assign name p.brk
  let q := if has then p else p.newSection name
  let found ← valueAt sections name
  some (found.1, { q with sections := found.2 })

/-- The loop of `clear`. -/
def deleteLoop : Nat → IniParser → Ptr → Option IniParser
  | 0, _, _ => none
  | fuel + 1, p, iter =>
    if iter = NULL then some p
    else do
      let e ← p.sections.heap iter
      let _ ← p.heap e.value
      deleteLoop fuel { p with heap := Function.update p.heap e.value none } e.next

def clear (p : IniParser) : Option IniParser := do
  let p ← deleteLoop p.sections.brk p p.sections.begin
  let sections ← p.sections.clear
  some { p with sections }

/-- `Section::putString`. -/
def putString (p : IniParser) (s : Ptr) (name value : Bytes) : Option IniParser := do
  let sec ← p.heap s
  let properties ← sec.properties.assign name value
  some { p with heap := Function.update p.heap s (some { sec with properties }) }

/-- `Section::getString`, which keeps a default. -/
def getString (p : IniParser) (s : Ptr) (name default_value : Bytes) : Option (Bytes × IniParser) := do
  let sec ← p.heap s
  let has ← sec.properties.hasKey name
  let properties ← if has then some sec.properties else sec.properties.assign name default_value
  let found ← valueAt properties name
  some (found.1, { p with heap := Function.update p.heap s (some { sec with properties := found.2 }) })

/-- A value without its quotes. A length of -1 is one of nearly 2³², with which the copy runs past the
string: `none`. -/
def unquote (value : Bytes) : Option Bytes :=
  if value.charAt 0 = 34 ∨ value.charAt 0 = 39 then
    if 2 ≤ value.length then some (value.substr 1 (value.length - 2)) else none
  else some value

/-- One round of `reparse`. -/
def parseLine (p : IniParser) (s : Ptr) (line : Bytes) : Option (IniParser × Ptr) :=
  if line.charAt 0 = 91 then do
    let name ← line.betweenChars 91 93
    let (s, p) ← p.getSection name
    let sec ← p.heap s
    let sections ← p.sections.assign sec.name s
    some ({ p with sections }, s)
  else if line.charAt 0 = 35 ∨ line.charAt 0 = 59 then some (p, s)
  else if 0 < line.countChar 61 then do
    let field := (line.«section» 61 0).trim
    let value ← unquote (line.«section» 61 1).trim
    let p ← p.putString s field value
    some (p, s)
  else some (p, s)

/-- The loop of `reparse`; `none` also when its rounds do not end. -/
def reparseLoop : Nat → IniParser → Ptr → TextFile → Option IniParser
  | 0, _, _, _ => none
  | fuel + 1, p, s, file =>
    if file.eof then some p
    else do
      let (p, s) ← p.parseLine s file.readLine.1
      reparseLoop fuel p s file.readLine.2

/-- `reparse`, with the contents of the files that exist. -/
def reparse (files : Bytes → Option Bytes) (p : IniParser) : Option IniParser :=
  match files p.filename with
  | none => some p
  | some content => do
    let (s, p) ← p.getSection (bytes "default")
    let sections ← p.sections.assign (bytes "default") s
    reparseLoop (content.length + 2) { p with sections } s ⟨content, false⟩

def parse (files : Bytes → Option Bytes) (p : IniParser) (filename : Bytes) : Option IniParser :=
  reparse files { p with filename }

end IniParser

end Srl
