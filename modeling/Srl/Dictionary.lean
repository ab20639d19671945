import Mathlib.Logic.Function.Basic
import Srl.SearchTree

namespace Srl

open SearchTree (Side)

/-- Pointers to dictionary entries, with 0 for `NULL`. -/
abbrev Ptr := Nat

abbrev NULL : Ptr := 0

/-- The exceptions a dictionary operation throws, with their messages. -/
inductive DictException
  | InvalidArgumentException (message : String)
  | NullPointerException (message : String)
  deriving DecidableEq, Repr

/-- `Hasher::Hash`, converted to the `int` that an entry stores. -/
class Hasher (Key : Type) where
  hash : Key → Int

/-- `String::Hash(const uint32&)` returns its argument; the entry keeps it as an `int`. -/
instance : Hasher UInt32 := ⟨fun i => i.toBitVec.toInt⟩

/-- `String::Hash(const int32&)`. -/
instance : Hasher Int32 := ⟨fun i => i.toInt⟩

inductive Color
  | red
  | black
  deriving DecidableEq, Repr

structure Entry (Key Value : Type) where
  prev : Ptr
  next : Ptr
  parent : Ptr
  lesser : Ptr
  greater : Ptr
  color : Color
  key : Key
  value : Value
  hash : Int

/-- Entries live on a heap; an address from `brk` on has never been allocated.
`_iter_end` is the constant `NULL` iterator. -/
structure Dictionary (Key Value : Type) where
  heap : Ptr → Option (Entry Key Value)
  brk : Ptr
  size : UInt32
  root : Ptr
  first : Ptr
  last : Ptr

variable {Key Value : Type}

namespace Entry

def child (e : Entry Key Value) : Side → Ptr
  | .lesser => e.lesser
  | .greater => e.greater

def withChild (e : Entry Key Value) (s : Side) (q : Ptr) : Entry Key Value :=
  match s with
  | .lesser => { e with lesser := q }
  | .greater => { e with greater := q }

def withParent (e : Entry Key Value) (p : Ptr) : Entry Key Value := { e with parent := p }

def withColor (e : Entry Key Value) (color : Color) : Entry Key Value := { e with color := color }

end Entry

namespace Dictionary

def empty : Dictionary Key Value := ⟨fun _ => none, 1, 0, NULL, NULL, NULL⟩

/-- Write through a pointer; `none` is the dereference of a `NULL` or dangling pointer. -/
def store (d : Dictionary Key Value) (p : Ptr) (f : Entry Key Value → Entry Key Value) :
    Option (Dictionary Key Value) :=
  (d.heap p).map fun e => { d with heap := Function.update d.heap p (some (f e)) }

def setColor (d : Dictionary Key Value) (p : Ptr) (color : Color) : Option (Dictionary Key Value) :=
  d.store p fun e => e.withColor color

/-- `if (entry != NULL) entry->_parent = p`. -/
def adopt (d : Dictionary Key Value) (entry p : Ptr) : Option (Dictionary Key Value) :=
  if entry ≠ NULL then d.store entry fun e => e.withParent p else some d

/-- `if (entry != NULL) entry->_color = BLACK`. -/
def blacken (d : Dictionary Key Value) (entry : Ptr) : Option (Dictionary Key Value) :=
  if entry ≠ NULL then d.setColor entry .black else some d

/-- `Entry::_setLesser` and `Entry::_setGreater`, by the side they write. -/
def setChild (d : Dictionary Key Value) (s : Side) (p entry : Ptr) :
    Option (Dictionary Key Value) := do
  let d ← d.store p fun e => e.withChild s entry
  d.adopt entry p

def setLesser (d : Dictionary Key Value) := d.setChild .lesser

def setGreater (d : Dictionary Key Value) := d.setChild .greater

/-- `Entry::_replaceChild`. -/
def replaceChild (d : Dictionary Key Value) (p olde newe : Ptr) : Option (Dictionary Key Value) := do
  let e ← d.heap p
  if e.lesser = olde then d.setLesser p newe else d.setGreater p newe

def grandparent (d : Dictionary Key Value) (entry : Ptr) : Option Ptr := do
  let e ← d.heap entry
  if e.parent = NULL then some NULL
  else
    let p ← d.heap e.parent
    some p.parent

def successorLoop (d : Dictionary Key Value) (s : Side) : Nat → Ptr → Option Ptr
  | 0, _ => none
  | fuel + 1, p => do
    let e ← d.heap p
    if e.child s ≠ NULL then d.successorLoop s fuel (e.child s) else some p

/-- `Entry::successor`. The loops of this file take the number of addresses ever
handed out as their budget; `none` stands for a run that exceeds it as well. -/
def successor (d : Dictionary Key Value) (entry : Ptr) : Option Ptr := do
  let e ← d.heap entry
  if e.greater ≠ NULL then d.successorLoop .lesser d.brk e.greater
  else if e.lesser ≠ NULL then d.successorLoop .greater d.brk e.lesser
  else some NULL

def findLoop (d : Dictionary Key Value) (key_hash : Int) : Nat → Ptr → Option Ptr
  | 0, _ => none
  | fuel + 1, node =>
    if node = NULL then some NULL
    else do
      let e ← d.heap node
      if key_hash = e.hash then some node
      else if key_hash > e.hash then d.findLoop key_hash fuel e.greater
      else d.findLoop key_hash fuel e.lesser

/-- `Dictionary::_find`. -/
def findEntry [Hasher Key] (d : Dictionary Key Value) (key : Key) : Option Ptr :=
  d.findLoop (Hasher.hash key) d.brk d.root

/-- `Dictionary::_link`. -/
def link (d : Dictionary Key Value) (entry : Ptr) : Option (Dictionary Key Value) := do
  let d ←
    if d.last ≠ NULL then do
      let last := d.last
      let d ← d.store last fun e => { e with next := entry }
      let d ← d.store entry fun e => { e with prev := last }
      some { d with last := entry }
    else some { d with first := entry, last := entry }
  some { d with size := d.size + 1 }

/-- `if (p != NULL) p->_next = entry`. -/
def setNext (d : Dictionary Key Value) (p entry : Ptr) : Option (Dictionary Key Value) :=
  if p ≠ NULL then d.store p fun e => { e with next := entry } else some d

/-- `if (p != NULL) p->_prev = entry`. -/
def setPrev (d : Dictionary Key Value) (p entry : Ptr) : Option (Dictionary Key Value) :=
  if p ≠ NULL then d.store p fun e => { e with prev := entry } else some d

/-- `Dictionary::_unlink`. -/
def unlink (d : Dictionary Key Value) (entry : Ptr) : Option (Dictionary Key Value) := do
  let e ← d.heap entry
  let d ← d.setNext e.prev e.next
  let e ← d.heap entry
  let d ← d.setPrev e.next e.prev
  let e ← d.heap entry
  some { d with
    first := if d.first = entry then e.next else d.first
    last := if d.last = entry then e.prev else d.last
    size := d.size - 1 }

/-- The part of both rotations that hangs `replacement` where `r` hangs; `s` is the side
that the rotation tests first. -/
def relink (d : Dictionary Key Value) (s : Side) (r p replacement : Ptr) :
    Option (Dictionary Key Value) :=
  if r = d.root then
    store { d with root := replacement } replacement fun e => e.withParent NULL
  else do
    let e ← d.heap p
    if e.child s = r then d.setChild s p replacement
    else d.setChild s.flip p replacement

/-- `_rotateRight` takes the lesser child up, `_rotateLeft` the greater one. The entry
that they return has no reader. -/
def rotate (d : Dictionary Key Value) (s : Side) (entry : Ptr) : Option (Dictionary Key Value) := do
  let r ← d.heap entry
  let replacement := r.child s
  if replacement = NULL then some d
  else
    let d ← d.relink s entry r.parent replacement
    let rep ← d.heap replacement
    let d ← d.setChild s entry (rep.child s.flip)
    d.setChild s.flip replacement entry

def rotateRight (d : Dictionary Key Value) := d.rotate .lesser

def rotateLeft (d : Dictionary Key Value) := d.rotate .greater

/-- `(p != NULL) && (p->_color == RED)`. -/
def isRed (d : Dictionary Key Value) (p : Ptr) : Option Bool :=
  if p = NULL then some false else (d.heap p).map fun e => e.color = .red

/-- The end of a `_validateInsert` round without a red uncle. -/
def rotateGrandparent (d : Dictionary Key Value) (s : Side) (entry : Ptr) :
    Option (Dictionary Key Value) := do
  let e ← d.heap entry
  let d ← d.blacken e.parent
  let gp ← d.grandparent entry
  if gp ≠ NULL then do
    let d ← d.setColor gp .red
    d.rotate s gp
  else some d

/-- One round of `_validateInsert` for a parent that is the `s` child of the grandparent.
Returns the entry the next round looks at. -/
def validateInsertSide (d : Dictionary Key Value) (s : Side) (entry : Ptr) :
    Option (Dictionary Key Value × Ptr) := do
  let e ← d.heap entry
  let gp ← d.grandparent entry
  let g ← d.heap gp
  let y := g.child s.flip
  if ← d.isRed y then
    let d ← d.setColor e.parent .black
    let d ← d.setColor y .black
    let d ← d.setColor gp .red
    some (d, gp)
  else
    let p ← d.heap e.parent
    if entry = p.child s.flip then
      let d ← d.rotate s.flip e.parent
      let d ← d.rotateGrandparent s e.parent
      some (d, e.parent)
    else
      let d ← d.rotateGrandparent s entry
      some (d, entry)

/-- The loop of `_validateInsert`, without the last write of the root's color. -/
def validateInsertLoop : Nat → Dictionary Key Value → Ptr → Option (Dictionary Key Value)
  | 0, _, _ => none
  | fuel + 1, d, entry =>
    if entry = d.root then some d
    else do
      let e ← d.heap entry
      let p ← d.heap e.parent
      if p.color ≠ .red then some d
      else
        let gp ← d.grandparent entry
        if gp = NULL then some d
        else
          let g ← d.heap gp
          let (d, entry) ←
            if e.parent = g.lesser then d.validateInsertSide .lesser entry
            else d.validateInsertSide .greater entry
          validateInsertLoop fuel d entry

def validateInsert (d : Dictionary Key Value) (entry : Ptr) : Option (Dictionary Key Value) := do
  let d ← validateInsertLoop d.brk d entry
  d.setColor d.root .black

/-- The descent of `_insert`: hang the entry below the last node of its search path. -/
def insertLoop (d : Dictionary Key Value) (entry : Ptr) : Nat → Ptr → Option (Dictionary Key Value)
  | 0, _ => none
  | fuel + 1, parent =>
    if parent = NULL then some d
    else do
      let e ← d.heap entry
      let p ← d.heap parent
      if e.hash ≥ p.hash then
        if p.greater = NULL then d.setGreater parent entry
        else d.insertLoop entry fuel p.greater
      else
        if p.lesser = NULL then d.setLesser parent entry
        else d.insertLoop entry fuel p.lesser

/-- `Dictionary::_insert` with the default `parent = NULL`. -/
def insertEntry (d : Dictionary Key Value) (entry : Ptr) : Option (Dictionary Key Value) :=
  if d.root = NULL then some { d with root := entry }
  else do
    let d ← d.insertLoop entry d.brk d.root
    d.validateInsert entry

/-- First half of `_remove`: take `y`, which has at most the child `x`, out of the tree. -/
def splice (d : Dictionary Key Value) (y x : Ptr) : Option (Dictionary Key Value) := do
  let e ← d.heap y
  let d ← d.adopt x e.parent
  let e ← d.heap y
  if e.parent = NULL then some { d with root := x }
  else
    let p ← d.heap e.parent
    if y = p.lesser then d.store e.parent fun p => p.withChild .lesser x
    else d.store e.parent fun p => p.withChild .greater x

/-- `if (p != NULL) p->_replaceChild(olde, newe)`. -/
def replaceBelow (d : Dictionary Key Value) (p olde newe : Ptr) : Option (Dictionary Key Value) :=
  if p ≠ NULL then d.replaceChild p olde newe else some d

/-- The `y != entry` part of `_remove`: `y` takes the place of `entry`. -/
def replaceEntry (d : Dictionary Key Value) (entry y : Ptr) : Option (Dictionary Key Value) :=
  if y = entry then some d
  else do
    let e ← d.heap entry
    let d ← d.setLesser y e.lesser
    let e ← d.heap entry
    let d ← d.setGreater y e.greater
    let e ← d.heap entry
    let d ← d.store y fun n => (n.withParent e.parent).withColor e.color
    let d ← d.replaceBelow e.parent entry y
    if entry = d.root then some { d with root := y } else some d

/-- `(p == NULL) || (p->_color == BLACK)`. -/
def isBlack (d : Dictionary Key Value) (p : Ptr) : Option Bool :=
  if p = NULL then some true else (d.heap p).map fun e => e.color = .black

/-- First case of a `_removeFixTree` round: a red sibling `w` is rotated up. Returns the
sibling the entry has afterwards. -/
def raiseRedSibling (d : Dictionary Key Value) (s : Side) (entry w : Ptr) :
    Option (Dictionary Key Value × Ptr) := do
  if ← d.isRed w then
    let d ← d.setColor w .black
    let e ← d.heap entry
    let d ← d.setColor e.parent .red
    let d ← d.rotate s.flip e.parent
    let e ← d.heap entry
    let p ← d.heap e.parent
    some (d, p.child s.flip)
  else some (d, w)

/-- Third case: a sibling whose outer child is black takes its inner child up. -/
def raiseInner (d : Dictionary Key Value) (s : Side) (entry w : Ptr) :
    Option (Dictionary Key Value × Ptr) := do
  let n ← d.heap w
  if ← d.isBlack (n.child s.flip) then
    let d ← d.blacken (n.child s)
    let d ← d.setColor w .red
    let d ← d.rotate s w
    let e ← d.heap entry
    let p ← d.heap e.parent
    some (d, p.child s.flip)
  else some (d, w)

/-- Last case: the sibling takes the place of the parent. -/
def raiseSibling (d : Dictionary Key Value) (s : Side) (entry w : Ptr) :
    Option (Dictionary Key Value × Ptr) := do
  let e ← d.heap entry
  let p ← d.heap e.parent
  let d ← d.setColor w p.color
  let n ← d.heap w
  if n.parent ≠ NULL then
    let d ← d.setColor e.parent .black
    let d ← d.blacken (n.child s.flip)
    let d ← d.rotate s.flip e.parent
    some (d, d.root)
  else some (d, entry)

/-- A `_removeFixTree` round after its first case. The flag is false when the round
leaves the loop by `break`. -/
def removeFixRest (d : Dictionary Key Value) (s : Side) (entry w : Ptr) :
    Option (Dictionary Key Value × Ptr × Bool) :=
  if w = NULL then some (d, entry, false)
  else do
    let n ← d.heap w
    let lesserBlack ← d.isBlack n.lesser
    let greaterBlack ← d.isBlack n.greater
    if lesserBlack && greaterBlack then
      let d ← d.setColor w .red
      let e ← d.heap entry
      some (d, e.parent, true)
    else
      let (d, w) ← d.raiseInner s entry w
      if w = NULL then some (d, entry, false)
      else
        let (d, entry) ← d.raiseSibling s entry w
        some (d, entry, true)

/-- One round of `_removeFixTree` for an entry that is the `s` child of its parent. -/
def removeFixSide (d : Dictionary Key Value) (s : Side) (entry : Ptr) :
    Option (Dictionary Key Value × Ptr × Bool) := do
  let e ← d.heap entry
  let p ← d.heap e.parent
  let (d, w) ← d.raiseRedSibling s entry (p.child s.flip)
  d.removeFixRest s entry w

/-- The loop of `_removeFixTree`; returns the entry whose color is set to black after it. -/
def removeFixLoop : Nat → Dictionary Key Value → Ptr → Option (Dictionary Key Value × Ptr)
  | 0, _, _ => none
  | fuel + 1, d, entry =>
    if entry = d.root then some (d, entry)
    else do
      let e ← d.heap entry
      if e.color ≠ .black then some (d, entry)
      else
        let p ← d.heap e.parent
        let (d, entry, more) ←
          if entry = p.lesser then d.removeFixSide .lesser entry
          else d.removeFixSide .greater entry
        if more then removeFixLoop fuel d entry else some (d, entry)

def removeFixTree (d : Dictionary Key Value) (entry : Ptr) : Option (Dictionary Key Value) := do
  let (d, entry) ← removeFixLoop (d.brk + 2) d entry
  d.setColor entry .black

/-- `Dictionary::_remove`. -/
def removeEntry (d : Dictionary Key Value) (entry : Ptr) : Option (Dictionary Key Value) := do
  let e ← d.heap entry
  let y ← if e.lesser = NULL ∨ e.greater = NULL then some entry else d.successor entry
  let ye ← d.heap y
  let x := if ye.lesser ≠ NULL then ye.lesser else ye.greater
  let d ← d.splice y x
  let ye ← d.heap y
  let fixflag := ye.color = .black ∧ x ≠ NULL
  let d ← d.replaceEntry entry y
  if fixflag then d.removeFixTree x else some d

/-- `delete entry`. -/
def delete (d : Dictionary Key Value) (entry : Ptr) : Option (Dictionary Key Value) :=
  (d.heap entry).map fun _ => { d with heap := Function.update d.heap entry none }

/-- `new Entry(key)`: the lists and the tree do not know the entry yet. -/
def newEntry [Hasher Key] [Inhabited Value] (d : Dictionary Key Value) (key : Key) :
    Ptr × Dictionary Key Value :=
  let entry := ⟨NULL, NULL, NULL, NULL, NULL, .red, key, default, Hasher.hash key⟩
  (d.brk, { d with heap := Function.update d.heap d.brk (some entry), brk := d.brk + 1 })

end Dictionary

end Srl
