import Mathlib.Logic.Function.Basic
import Srl.Transition

namespace Srl.Mutex

abbrev THREAD_ID := UInt64

def NULL_THREAD : THREAD_ID := 0

/-- The recursive pthread mutex: who holds it, and how often. -/
structure PThread (Thread : Type) where
  holder : Option Thread
  count : Nat
deriving DecidableEq

section PThread

variable {Thread : Type} [DecidableEq Thread]

/-- `pthread_mutex_lock`, which has to wait while another thread holds the mutex. -/
def pthread_mutex_lock (m : PThread Thread) (c : Thread) : Option (PThread Thread) :=
  match m.holder with
  | none => some ⟨some c, 1⟩
  | some c' => if c' = c then some ⟨some c, m.count + 1⟩ else none

/-- `pthread_mutex_unlock`, which changes nothing when the caller does not hold the mutex. -/
def pthread_mutex_unlock (m : PThread Thread) (c : Thread) : PThread Thread :=
  if m.holder = some c then
    if m.count = 1 then ⟨none, 0⟩ else { m with count := m.count - 1 }
  else m

end PThread

/-- The next step of a thread in `lock`, `tryLock` or `unlock`; `++_counter` is a read and a write. -/
inductive Pc
  | idle
  | lockTest (tries : Bool)
  | lockPthread (tries : Bool)
  | lockOwn
  | lockFlag
  | lockRead
  | lockWrite (counter : UInt32)
  | unlockTest
  | unlockZero
  | unlockRead
  | unlockWrite (counter : UInt32)
  | unlockLast
  | unlockFlag
  | unlockDisown
  | unlockBelow
  | unlockCheck
  | unlockPthread
deriving DecidableEq

/-- What a call came back with. -/
inductive Result
  | locked (success : Bool)
  | unlocked
  | MutexException (message : String)
deriving DecidableEq

variable {Thread : Type}

/-- `depth` counts the locks of a thread that are not yet given back. -/
structure State (Thread : Type) where
  _is_locked : Bool
  _thread_id : THREAD_ID
  _counter : UInt32
  _pmutex : PThread Thread
  pc : Thread → Pc
  depth : Thread → Nat
  result : Thread → Option Result

def init : State Thread :=
  ⟨false, NULL_THREAD, 0, ⟨none, 0⟩, fun _ => .idle, fun _ => 0, fun _ => none⟩

inductive Event (Thread : Type)
  | lock (c : Thread)
  | tryLock (c : Thread)
  | unlock (c : Thread)
  | thread (c : Thread)

section Steps

variable [DecidableEq Thread] (id : Thread → THREAD_ID) (s : State Thread)

def State.goto (c : Thread) (pc : Pc) : State Thread := { s with pc := Function.update s.pc c pc }

def State.answer (c : Thread) (depth : Nat) (result : Result) : State Thread :=
  { s with
    pc := Function.update s.pc c .idle
    depth := Function.update s.depth c depth
    result := Function.update s.result c (some result) }

def threadStep (c : Thread) : Option (State Thread) :=
  match s.pc c with
  | .idle => none
  | .lockTest tries => some (s.goto c (if s._thread_id ≠ id c then .lockPthread tries else .lockFlag))
  | .lockPthread tries =>
    match pthread_mutex_lock s._pmutex c with
    | some m => some ({ s with _pmutex := m }.goto c .lockOwn)
    | none => if tries then some (s.answer c (s.depth c) (.locked false)) else none
  | .lockOwn => some ({ s with _thread_id := id c }.goto c .lockFlag)
  | .lockFlag => some ({ s with _is_locked := true }.goto c .lockRead)
  | .lockRead => some (s.goto c (.lockWrite s._counter))
  | .lockWrite counter => some ({ s with _counter := counter + 1 }.answer c (s.depth c + 1) (.locked true))
  | .unlockTest =>
    if s._thread_id ≠ id c then
      some (s.answer c (s.depth c) (.MutexException "Trying to unlock a mutex the thread does not own!"))
    else some (s.goto c .unlockZero)
  | .unlockZero =>
    if s._counter = 0 then
      some (s.answer c (s.depth c) (.MutexException "Trying to unlock a mutex that is not locked!"))
    else some (s.goto c .unlockRead)
  | .unlockRead => some (s.goto c (.unlockWrite s._counter))
  | .unlockWrite counter => some ({ s with _counter := counter - 1 }.goto c .unlockLast)
  | .unlockLast => some (s.goto c (if s._counter = 0 then .unlockFlag else .unlockBelow))
  | .unlockFlag => some ({ s with _is_locked := false }.goto c .unlockDisown)
  | .unlockDisown => some ({ s with _thread_id := NULL_THREAD }.goto c .unlockCheck)
  | .unlockBelow =>
    if s._counter < 0 then some (s.answer c (s.depth c) (.MutexException "mutex count is less then 0!"))
    else some (s.goto c .unlockCheck)
  | .unlockCheck =>
    if s._counter = 0 then some (s.goto c .unlockPthread) else some (s.answer c (s.depth c - 1) .unlocked)
  | .unlockPthread =>
    some ({ s with _pmutex := pthread_mutex_unlock s._pmutex c }.answer c (s.depth c - 1) .unlocked)

def step : Event Thread → Option (State Thread)
  | .lock c => if s.pc c = .idle then some (s.goto c (.lockTest false)) else none
  | .tryLock c => if s.pc c = .idle then some (s.goto c (.lockTest true)) else none
  | .unlock c => if s.pc c = .idle then some (s.goto c .unlockTest) else none
  | .thread c => threadStep id s c

end Steps

end Srl.Mutex
