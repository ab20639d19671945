import Srl.Bytes
import Srl.DictionaryRuns
import Srl.VectorGrows
import Mathlib.Algebra.Order.Ring.Rat

namespace Srl

open Session

/-- A `Process`, with its pid and the rest of what is read about it. -/
structure Process (Status : Type) where
  pid : UInt32
  status : Status

/-- What `/proc` says about a process: what its constructor reads, and what `Process::refresh` makes of what
was read before. -/
structure Proc (Status : Type) where
  initial : UInt32 → Status
  refresh : UInt32 → Status → Status

/-- What a listener is told, with the `id()` of the process that it is given. -/
inductive ProcessEvent
  | started (pid : UInt32)
  | stopped (pid : UInt32)
deriving DecidableEq

/-- A `ProcessList`. The processes live on a heap, where an address from `brk` on has never been allocated;
`listener` tells whether one is set, and `events` is what listeners have been told. -/
structure ProcessList (Status : Type) where
  heap : Ptr → Option (Process Status)
  brk : Ptr
  list : Dictionary UInt32 Ptr
  listener : Bool
  events : List ProcessEvent
  last_update : ℚ
  pids : Vector UInt32
  new_pids : Vector UInt32
  dead_pids : Vector UInt32

namespace ProcessList

variable {Status : Type}

/-- A call on a process list. It throws `fault` when it uses a pointer to nothing. -/
abbrev Call (Status α : Type) := Method (ProcessList Status) Thrown α

section Vectors

variable {α : Type}

abbrev onPids : Vector.Call UInt32 α → Call Status α := part pids fun v l => { l with pids := v }

abbrev onNewPids : Vector.Call UInt32 α → Call Status α := part new_pids fun v l => { l with new_pids := v }

abbrev onDeadPids : Vector.Call UInt32 α → Call Status α := part dead_pids fun v l => { l with dead_pids := v }

end Vectors

/-- The entry that an iterator points to. -/
def entry (iter : Ptr) : Call Status (Entry UInt32 Ptr) := do
  match (← get).list.heap iter with
  | some e => pure e
  | none => throw .fault

/-- `*process`. -/
def load (process : Ptr) : Call Status (Process Status) := do
  match (← get).heap process with
  | some p => pure p
  | none => throw .fault

def store (process : Ptr) (p : Option (Process Status)) : Call Status Unit :=
  modify fun l => { l with heap := Function.update l.heap process p }

/-- `new Process(pid, _cpu_count)`. -/
def newProcess (proc : Proc Status) (pid : UInt32) : Call Status Ptr := do
  let process := (← get).brk
  modify fun l => { l with brk := l.brk + 1 }
  store process (some ⟨pid, proc.initial pid⟩)
  pure process

/-- `process->refresh()`. -/
def refreshProcess (proc : Proc Status) (process : Ptr) : Call Status Unit := do
  let p ← load process
  store process (some { p with status := proc.refresh p.pid p.status })

/-- `delete process`. -/
def deleteProcess (process : Ptr) : Call Status Unit := do
  let _ ← load process
  store process none

/-- `_list[pid] = process`. -/
def assign (pid : UInt32) (process : Ptr) : Call Status Unit := do
  match (← get).list.assign pid process with
  | some list => modify fun l => { l with list := list }
  | none => throw .fault

/-- `iter = _list.remove(iter)`; an exception of the dictionary would leave `refresh`, as a fault does. -/
def removeEntry (iter : Ptr) : Call Status Ptr := do
  match (← get).list.removeIterator iter with
  | some (.ok (next, list)) => do
    modify fun l => { l with list := list }
    pure next
  | _ => throw .fault

def getProcess (pid : UInt32) : Call Status Ptr := do
  match (← get).list.find pid with
  | some iter => do
    if iter = NULL then pure NULL else do
      let e ← entry iter
      pure e.value
  | none => throw .fault

/-- Tells the listener, when there is one, about a process. -/
def notify (event : UInt32 → ProcessEvent) (process : Ptr) : Call Status Unit := do
  if (← get).listener then do
    let p ← load process
    modify fun l => { l with events := l.events ++ [event p.pid] }
  else pure ()

variable (proc : Proc Status) (fresh : ProcessList Status → Nat → UInt32)

/-- `add` to one of the vectors; `fresh` is what the memory of a new array holds. -/
def addTo (on : Vector.Call UInt32 Unit → Call Status Unit) (pid : UInt32) : Call Status Unit := do
  on (Vector.add (Vector.resizeValues (fresh (← get))) pid)

def clearAll (on : Vector.Call UInt32 Unit → Call Status Unit) : Call Status Unit := do
  on (Vector.clearValues (fresh (← get)))

/-- What the scan does with a pid. -/
def visit (pid : UInt32) : Call Status Unit := do
  addTo fresh onPids pid
  let process ← getProcess pid
  if process = NULL then do
    addTo fresh onNewPids pid
    let process ← newProcess proc pid
    assign pid process
    notify .started process
  else refreshProcess proc process

/-- `isdigit(d_name[0])`. -/
def numeric : Bytes → Bool
  | c :: _ => 48 ≤ c ∧ c ≤ 57
  | [] => false

/-- The loop over the names in the directory. -/
def scan : List Bytes → Call Status Unit
  | [] => pure ()
  | d_name :: names => do
    if numeric d_name then visit proc fresh (Bytes.uint d_name 10) else pure ()
    scan names

/-- What `remove_dead` does with the entry of a process that is gone. -/
def removeProcess (iter process : Ptr) : Call Status Ptr := do
  notify .stopped process
  let p ← load process
  addTo fresh onDeadPids p.pid
  deleteProcess process
  removeEntry iter

/-- The loop of `remove_dead`. -/
def removeDeadLoop : Nat → Ptr → Call Status Unit
  | 0, _ => throw .fault
  | fuel + 1, iter => do
    if iter = NULL then pure ()
    else do
      let e ← entry iter
      if ← onPids (Vector.containsValue e.key) then removeDeadLoop fuel e.next
      else do
        let iter ← removeProcess fresh iter e.value
        removeDeadLoop fuel iter

def remove_dead : Call Status Unit := do
  let list := (← get).list
  clearAll fresh onDeadPids
  removeDeadLoop fresh list.brk list.begin

/-- `refresh` at a time, with the names in `/proc`, or none when `opendir` fails. -/
def refresh (cur_time : ℚ) (parent : Option (List Bytes)) : Call Status Unit := do
  if cur_time - (← get).last_update < 1 then pure ()
  else do
    modify fun l => { l with last_update := cur_time }
    match parent with
    | none => throw (.io (bytes "call to opendir failed!"))
    | some names => do
      clearAll fresh onPids
      clearAll fresh onNewPids
      scan proc fresh names
      remove_dead fresh

end ProcessList

end Srl
