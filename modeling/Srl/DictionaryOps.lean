import Srl.Dictionary

namespace Srl

variable {Key Value : Type}

namespace Dictionary

/-- The iterators of a dictionary are entry pointers; the end iterator is `NULL`. -/
def begin (d : Dictionary Key Value) : Ptr := d.first

def next (d : Dictionary Key Value) (iter : Ptr) : Option Ptr := (d.heap iter).map Entry.next

/-- The keys that an iteration sees. -/
def keysLoop (d : Dictionary Key Value) : Nat → Ptr → List Key
  | 0, _ => []
  | fuel + 1, iter =>
    if iter = NULL then []
    else
      match d.heap iter with
      | some e => e.key :: d.keysLoop fuel e.next
      | none => []

def keys (d : Dictionary Key Value) : List Key := d.keysLoop d.brk d.begin

def isEmpty (d : Dictionary Key Value) : Bool := d.size = 0

def containsValueLoop [DecidableEq Value] (d : Dictionary Key Value) (value : Value) :
    Nat → Ptr → Option Bool
  | 0, _ => none
  | fuel + 1, entry =>
    if entry = NULL then some false
    else do
      let e ← d.heap entry
      if e.value = value then some true else d.containsValueLoop value fuel e.next

def containsValue [DecidableEq Value] (d : Dictionary Key Value) (value : Value) : Option Bool :=
  d.containsValueLoop value d.brk d.first

/-- The loop of `clear`: every entry is deleted after its `_next` is read. -/
def clearLoop : Nat → Dictionary Key Value → Ptr → Option (Dictionary Key Value)
  | 0, _, _ => none
  | fuel + 1, d, entry =>
    if entry = NULL then some d
    else do
      let e ← d.heap entry
      let d ← d.delete entry
      clearLoop fuel d e.next

def clear (d : Dictionary Key Value) : Option (Dictionary Key Value) := do
  let d ← clearLoop d.brk d d.first
  some { d with size := 0, root := NULL, first := NULL, last := NULL }

/-- The three calls that end both forms of `remove`. -/
def drop (d : Dictionary Key Value) (entry : Ptr) : Option (Dictionary Key Value) := do
  let d ← d.unlink entry
  let d ← d.removeEntry entry
  d.delete entry

def alreadyContains : DictException :=
  .InvalidArgumentException "dictionary already contains an entry with this key"

def doesNotExist : DictException := .NullPointerException "dictionary entry does not exist"

/-- What `get` does with a value that is there or not. -/
def answer : Option Value → Except DictException Value
  | some v => .ok v
  | none => .error doesNotExist

variable [Hasher Key]

def find (d : Dictionary Key Value) (key : Key) : Option Ptr := d.findEntry key

def hasKey (d : Dictionary Key Value) (key : Key) : Option Bool :=
  (d.findEntry key).map fun entry => entry ≠ NULL

def get (d : Dictionary Key Value) (key : Key) : Option (Except DictException Value) := do
  let entry ← d.findEntry key
  if entry = NULL then some (.error doesNotExist)
  else (d.heap entry).map fun e => .ok e.value

/-- No operation writes before it throws, so an error leaves the dictionary as it was. -/
def remove (d : Dictionary Key Value) (key : Key) :
    Option (Except DictException (Dictionary Key Value)) := do
  let entry ← d.findEntry key
  if entry = NULL then some (.error doesNotExist) else (d.drop entry).map .ok

/-- `remove(Iterator&)`, with the iterator that it moves on. -/
def removeIterator (d : Dictionary Key Value) (iter : Ptr) :
    Option (Except DictException (Ptr × Dictionary Key Value)) := do
  let e ← d.heap iter
  let entry ← d.findEntry e.key
  if entry = NULL then some (.error doesNotExist)
  else (d.drop entry).map fun d => .ok (e.next, d)

variable [Inhabited Value]

def add (d : Dictionary Key Value) (key : Key) (value : Value) :
    Option (Except DictException (Dictionary Key Value)) := do
  if ← d.hasKey key then some (.error alreadyContains)
  else
    let (entry, d) := d.newEntry key
    let d ← d.store entry fun e => { e with value := value }
    let d ← d.link entry
    let d ← d.insertEntry entry
    some (.ok d)

/-- `operator[]`, with the entry whose value it returns a reference to. -/
def index (d : Dictionary Key Value) (key : Key) : Option (Ptr × Dictionary Key Value) := do
  let entry ← d.findEntry key
  if entry = NULL then
    let (entry, d) := d.newEntry key
    let d ← d.link entry
    let d ← d.insertEntry entry
    some (entry, d)
  else some (entry, d)

/-- `dictionary[key] = value`. -/
def assign (d : Dictionary Key Value) (key : Key) (value : Value) : Option (Dictionary Key Value) := do
  let (entry, d) ← d.index key
  d.store entry fun e => { e with value := value }

end Dictionary

end Srl
