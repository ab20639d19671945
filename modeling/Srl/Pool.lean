import Mathlib.Logic.Function.Basic
import Srl.Semaphore
import Srl.Transition

namespace Srl

namespace Pool

/-- The sizes a pool is made with, and whether it has a `_waiter`: `ThreadPool` has, `HttpServer` has not. -/
structure Config where
  max_size : Nat
  min_size : Nat
  waits : Bool
deriving DecidableEq

/-- The next step of `_getThread` (`_getRequest`) under `_pool_lock`. -/
inductive GetPc
  | pick
  | full
  | reach (thread : Nat)
  | first (thread : Nat)
  | add (thread : Nat)
  | unlock (thread : Nat)
deriving DecidableEq

/-- The next step of `task_completed` under `_pool_lock`. -/
inductive DonePc
  | detach
  | remove
  | add
  | check
  | blockerTest
  | blockerBack
  | blockerRelease
  | busyTest
  | waiterTest
  | waiterBack
  | waiterRelease
  | unlock
  | throw
deriving DecidableEq

/-- `_pool_lock`: free, or held by a call that stands at a step. -/
inductive Lock (Client : Type)
  | free
  | getThread (client : Client) (pc : GetPc)
  | task_completed (thread : Nat) (pc : DonePc)
deriving DecidableEq

/-- The next step of a client in `runTask` (the acceptor in `run`) or in `waitAll`. -/
inductive ClientPc (Task : Type)
  | idle
  | enter (task : Task) (retry : Bool)
  | inside (task : Task) (retry : Bool)
  | block (task : Task)
  | null (task : Task)
  | hand (task : Task) (thread : Nat)
  | wake (thread : Nat)
  | stopped
  | waitBusy
  | waitTest
  | waitBack
  | waitAcquire
  | waitRelease
deriving DecidableEq

/-- A pool thread (a request): `finishing` waits for `_pool_lock` in `task_completed`. -/
inductive WorkerPc
  | paused
  | running
  | finishing
  | completing
  | dead
deriving DecidableEq

variable {Client Task : Type}

/-- `submitted` and `handed` keep the history of the calls of `runTask`. -/
structure State (Client Task : Type) where
  available : List Nat
  busy : List Nat
  size : Nat
  blocker : Nat
  waiter : Nat
  lock : Lock Client
  client : Client → ClientPc Task
  worker : Nat → WorkerPc
  task : Nat → Option Task
  submitted : Client → List Task
  handed : Client → List (Task × Nat)

/-- The constructor, after `n` rounds of its loop. -/
def filled : Nat → State Client Task
  | 0 => ⟨[], [], 0, 1, 1, .free, fun _ => .idle, fun _ => .paused, fun _ => none, fun _ => [], fun _ => []⟩
  | n + 1 =>
    let s := filled n
    { s with size := s.size + 1, available := s.available ++ [s.size] }

def init (cfg : Config) : State Client Task := filled cfg.min_size

section Steps

variable [DecidableEq Client] (cfg : Config) (s : State Client Task)

def State.goto (c : Client) (pc : ClientPc Task) : State Client Task :=
  { s with client := Function.update s.client c pc }

def State.become (t : Nat) (pc : WorkerPc) : State Client Task :=
  { s with worker := Function.update s.worker t pc }

variable {s} in
@[grind =] theorem State.goto_client {c c' : Client} {pc : ClientPc Task} :
    (s.goto c pc).client c' = if c' = c then pc else s.client c' := Function.update_apply _ _ _ _

variable {s} in
@[grind =] theorem State.goto_lock {c : Client} {pc : ClientPc Task} : (s.goto c pc).lock = s.lock := rfl

variable {s} in
@[grind =] theorem State.goto_available {c : Client} {pc : ClientPc Task} :
    (s.goto c pc).available = s.available := rfl

variable {s} in
@[grind =] theorem State.goto_busy {c : Client} {pc : ClientPc Task} : (s.goto c pc).busy = s.busy := rfl

variable {s} in
@[grind =] theorem State.goto_waiter {c : Client} {pc : ClientPc Task} : (s.goto c pc).waiter = s.waiter := rfl

/-- A step of `_getThread`; a thread that is created is known by its number. -/
def getStep (c : Client) (task : Task) (retry : Bool) : GetPc → State Client Task
  | .pick =>
    match s.available.getLast? with
    | some t => { s with available := s.available.dropLast, lock := .getThread c (.reach t) }
    | none =>
      if s.size < cfg.max_size then { s with size := s.size + 1, lock := .getThread c (.reach s.size) }
      else { s with lock := .getThread c .full }
  | .full => { s with lock := .free }.goto c (if retry then .null task else .block task)
  | .reach t =>
    { s with
      blocker := if s.available = [] ∧ s.size = cfg.max_size then s.blocker - 1 else s.blocker
      lock := .getThread c (if cfg.waits then .first t else .add t) }
  | .first t =>
    { s with waiter := if s.busy = [] then s.waiter - 1 else s.waiter, lock := .getThread c (.add t) }
  | .add t => { s with busy := s.busy ++ [t], lock := .getThread c (.unlock t) }
  | .unlock t => { s with lock := .free }.goto c (.hand task t)

/-- A step of `task_completed`; the loop on `_waiter` tests after each release. -/
def doneStep (t : Nat) : DonePc → State Client Task
  | .detach =>
    { s with
      task := if cfg.waits then Function.update s.task t none else s.task
      lock := .task_completed t .remove }
  | .remove =>
    if t ∈ s.busy then { s with busy := s.busy.erase t, lock := .task_completed t .add }
    else { s with lock := .task_completed t .throw }
  | .add => { s with available := s.available ++ [t], lock := .task_completed t .check }
  | .check =>
    { s with
      lock := .task_completed t
        (if s.available.length = 1 ∧ s.size = cfg.max_size then .blockerTest else .busyTest) }
  | .blockerTest =>
    { s with
      blocker := s.blocker - 1
      lock := .task_completed t (if 0 < s.blocker then .blockerBack else .blockerRelease) }
  | .blockerBack | .blockerRelease =>
    { s with blocker := Semaphore.release s.blocker, lock := .task_completed t .busyTest }
  | .busyTest =>
    { s with lock := .task_completed t (if cfg.waits ∧ s.busy = [] then .waiterTest else .unlock) }
  | .waiterTest =>
    { s with
      waiter := s.waiter - 1
      lock := .task_completed t (if 0 < s.waiter then .waiterBack else .waiterRelease) }
  | .waiterBack => { s with waiter := Semaphore.release s.waiter, lock := .task_completed t .unlock }
  | .waiterRelease => { s with waiter := Semaphore.release s.waiter, lock := .task_completed t .waiterTest }
  | .unlock => { s with lock := .free }.become t .paused
  | .throw => { s with lock := .free }.become t .dead

def clientStep (c : Client) : Option (State Client Task) :=
  match s.client c with
  | .idle | .null _ | .stopped => none
  | .enter task retry =>
    match s.lock with
    | .free => some ({ s with lock := .getThread c .pick }.goto c (.inside task retry))
    | _ => none
  | .inside task retry =>
    match s.lock with
    | .getThread c' pc => if c' = c then some (getStep cfg s c task retry pc) else none
    | _ => none
  | .block task =>
    if 0 < s.blocker then some ({ s with blocker := s.blocker - 1 }.goto c (.enter task true)) else none
  | .hand task t =>
    some ({ s with
      task := Function.update s.task t (some task)
      handed := Function.update s.handed c (s.handed c ++ [(task, t)]) }.goto c (.wake t))
  | .wake t => some ((if s.worker t = .paused then s.become t .running else s).goto c .idle)
  | .waitBusy => some (s.goto c (if s.busy = [] then .idle else .waitTest))
  | .waitTest =>
    some ({ s with waiter := s.waiter - 1 }.goto c (if 0 < s.waiter then .waitBack else .waitAcquire))
  | .waitAcquire => if 0 < s.waiter then some ({ s with waiter := s.waiter - 1 }.goto c .waitRelease) else none
  | .waitBack | .waitRelease => some ({ s with waiter := Semaphore.release s.waiter }.goto c .idle)

def workerStep (t : Nat) : Option (State Client Task) :=
  match s.worker t, s.lock with
  | .finishing, .free => some ({ s with lock := .task_completed t .detach }.become t .completing)
  | .completing, .task_completed t' pc => if t' = t then some (doneStep cfg s t pc) else none
  | _, _ => none

end Steps

/-- What can happen next: a call, a step of a client or of a pool thread, an `accept` that throws, the end of a task. -/
inductive Event (Client Task : Type)
  | runTask (c : Client) (task : Task)
  | waitAll (c : Client)
  | client (c : Client)
  | refuse (c : Client)
  | finish (t : Nat)
  | worker (t : Nat)

def step [DecidableEq Client] (cfg : Config) (s : State Client Task) :
    Event Client Task → Option (State Client Task)
  | .runTask c task =>
    match s.client c with
    | .idle =>
      some ({ s with submitted := Function.update s.submitted c (s.submitted c ++ [task]) }.goto c (.enter task false))
    | _ => none
  | .waitAll c =>
    match s.client c with
    | .idle => if cfg.waits then some (s.goto c .waitBusy) else none
    | _ => none
  | .client c => clientStep cfg s c
  | .refuse c =>
    match s.client c with
    | .hand _ _ => if cfg.waits then none else some (s.goto c .stopped)
    | _ => none
  | .finish t =>
    match s.worker t with
    | .running =>
      some ({ s with task := if cfg.waits then s.task else Function.update s.task t none }.become t .finishing)
    | _ => none
  | .worker t => workerStep cfg s t

end Pool

end Srl
