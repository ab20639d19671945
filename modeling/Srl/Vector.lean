import Srl.ByteBufferOps
import Srl.Session

namespace Srl

open Cells Session

/-- A `Vector`, in either of its templates: `array` is the whole allocation, or `none` for `NULL`, and
`end_pos` is the position that `_end_iter` stores. -/
structure Vector (α : Type) where
  size : Nat
  init_size : Nat
  array_size : Nat
  array : Option (List α)
  end_pos : Nat
deriving DecidableEq

namespace Vector

variable {α : Type}

/-- A call on a vector. It throws `fault` when it uses an index that is not below `_array_size`. -/
abbrev Call (α β : Type) := Method (Vector α) Thrown β

/-- The cells of the array; `NULL` has none. -/
def cells (v : Vector α) : List α := v.array.getD []

/-- `_array[i]`, read. -/
def read (i : Nat) : Call α α := do
  match (← get).cells[i]? with
  | some value => pure value
  | none => throw .fault

/-- `_array[i] = value`. -/
def write (i : Nat) (value : α) : Call α Unit := do
  let v ← get
  if i < v.cells.length then set { v with array := some (v.cells.set i value) } else throw .fault

/-- `memmove` of `n` cells from the index `i` to the index `j`. -/
def move (j i n : Nat) : Call α Unit := do
  let v ← get
  if max j i + n ≤ v.cells.length then
    set { v with array := some (overwrite v.cells j (window v.cells i (i + n))) }
  else throw .fault

def indexOutOfBounds (message : String) : Thrown := .indexOutOfBounds (bytes message)

/-- `add`, which is the same in both templates but for `resize`. -/
def add (resize : Nat → Call α Unit) (value : α) : Call α Unit := do
  resize (((← get).size + 1) % 2 ^ 32)
  write (← get).size value
  modify fun v => { v with size := (v.size + 1) % 2 ^ 32, end_pos := (v.end_pos + 1) % 2 ^ 32 }

/-- `addAt`, which is the same in both templates but for `resize`. -/
def addAt (resize : Nat → Call α Unit) (index : Nat) (value : α) : Call α Unit := do
  let v ← get
  if v.size ≤ index then throw (indexOutOfBounds "index is bigger then the size of the list (addAt)")
  else
    resize ((v.size + 1) % 2 ^ 32)
    let v ← get
    if index ≠ (v.size + 2 ^ 32 - 1) % 2 ^ 32 then move (index + 1) index ((v.size + 2 ^ 32 - index) % 2 ^ 32)
    else pure ()
    write index value
    modify fun v => { v with size := (v.size + 1) % 2 ^ 32, end_pos := (v.end_pos + 1) % 2 ^ 32 }

/-- `removeAt`, which is the same in both templates but for `resize`. -/
def removeAt (resize : Nat → Call α Unit) (index : Nat) : Call α Unit := do
  let v ← get
  if v.size ≤ index then throw (indexOutOfBounds "index is bigger then the size of the list (removeAt)")
  else
    if index ≠ v.size - 1 then move index (index + 1) (v.size - (index + 1)) else pure ()
    modify fun v => { v with size := v.size - 1, end_pos := (v.end_pos + 2 ^ 32 - 1) % 2 ^ 32 }
    let v ← get
    if v.init_size < v.size then resize v.size else pure ()

/-- The loop of `positionOf`. -/
def positionLoop [BEq α] (value : α) (size : Nat) : Nat → Nat → Call α (Option Nat)
  | 0, _ => pure none
  | fuel + 1, i =>
    if i < size then do
      if (← read i) == value then pure (some i) else positionLoop value size fuel (i + 1)
    else pure none

/-- `positionOf`, whose position is an `int`. -/
def positionOf [BEq α] (value : α) : Call α Int := do
  let size := (← get).size
  match ← positionLoop value size size 0 with
  | some i => pure ((i : Int).bmod (2 ^ 32))
  | none => pure (-1)

def containsValue [BEq α] (value : α) : Call α Bool := do pure (decide (0 ≤ (← positionOf value)))

/-- `remove`, which gives the `int` to `removeAt` as an index. -/
def remove [BEq α] (resize : Nat → Call α Unit) (value : α) : Call α Unit := do
  removeAt resize ((← positionOf value) % 2 ^ 32).toNat

/-- The new `_array_size` that `resize` asks for; `roundval` is 32 by value and 16 for pointers. -/
def rounded (v : Vector α) (size_needed roundval : Nat) : Nat :=
  roundup ((if size_needed < v.init_size then v.init_size else size_needed) + 1) roundval

/-- `resize(0)`, which frees the array. -/
def release (v : Vector α) : Vector α :=
  if v.array.isSome then { v with size := 0, end_pos := 0, array_size := 0, array := none } else v

/-- `Vector<Value>::resize`. The cells of a new array hold what `new Value[]` put there; growing copies
the elements over, and shrinking does not. -/
def resizeValues (fresh : Nat → α) (size_needed : Nat) : Call α Unit := do
  let v ← get
  if 0 < size_needed then
    let new_size := v.rounded size_needed 32
    if new_size = v.array_size then pure ()
    else
      let new_array := (List.range new_size).map fresh
      if v.array.isSome ∧ v.array_size < new_size ∧ 0 < v.size then
        if v.size ≤ v.cells.length ∧ v.size ≤ new_size then
          set { v with array := some (overwrite new_array 0 (v.cells.take v.size)), array_size := new_size }
        else throw .fault
      else set { v with array := some new_array, array_size := new_size }
  else set v.release

/-- `Vector<Value*>::resize`. The cells that `malloc` and `realloc` add hold anything; the one behind the
last element becomes `NULL`. -/
def resizePointers (fresh : Nat → Option α) (size_needed : Nat) : Call (Option α) Unit := do
  let v ← get
  if 0 < size_needed then
    let new_size := v.rounded size_needed 16
    if new_size = v.array_size then pure ()
    else
      set { v with array := some (realloc v.cells new_size fresh), array_size := new_size }
      write v.size none
  else set v.release

/-- A vector under construction: its constructor calls `resize`. -/
def empty (initial_size : Nat) : Vector α :=
  { size := 0, init_size := initial_size, array_size := 0, array := none, end_pos := 0 }

/-- The cell at an index that is checked first; `message` is what the check throws. -/
def checked (message : String) (index : Nat) : Call α α := do
  if (← get).size ≤ index then throw (indexOutOfBounds message) else read index

/-- `set`, which returns the pointer that it replaces. -/
def set (index : Nat) (value : α) : Call α α := do
  let old_value ← checked "index is bigger then the size of the list (set)" index
  write index value
  pure old_value

/-- `Vector<Value>::clear`, which resizes before it sets the size. -/
def clearValues (fresh : Nat → α) : Call α Unit := do
  resizeValues fresh (← get).init_size
  modify fun v => { v with size := 0, end_pos := 0 }

/-- `Vector<Value*>::clear`. It reads every element that it deletes. -/
def clearPointers (fresh : Nat → Option α) (do_delete : Bool) : Call (Option α) Unit := do
  let v ← get
  if do_delete ∧ v.cells.length < v.size then throw .fault
  else
    modify fun v => { v with size := 0 }
    resizePointers fresh v.init_size
    modify fun v => { v with end_pos := 0 }

/-- The position that `pop` computes; the default index -1 is the last one. -/
def popPosition (size : Nat) (index : Int32) : Nat :=
  if index = -1 then (size + 2 ^ 32 - 1) % 2 ^ 32 else index.toUInt32.toNat

def get (index : Nat) : Call α α := checked "index is bigger then the size of the list (get)" index

/-- `pop`, for vectors of pointers. -/
def pop (fresh : Nat → Option α) (index : Int32) : Call (Option α) (Option α) := do
  let pos := popPosition (← MonadState.get).size index
  let val ← get pos
  removeAt (resizePointers fresh) pos
  pure val

end Vector

end Srl
