import Srl.ThreadPause

namespace Srl.Thread.Lifecycle

open Transition

/-- The callbacks of a thread, in the order in which they are called. -/
inductive Callback
  | initial
  | run
  | final
deriving DecidableEq

/-- The fields of a `Thread` that its steps read and write. -/
structure Memory where
  _state : THREAD_STATE
  _have_handle : Bool
  _do_pause : Bool
  _do_cancel : Bool
  _pauseSem : Nat
  _thread_id : Option Nat
deriving DecidableEq

/-- The next step of a thread that was created: `initial`, `run` and `final` are inside the callbacks, `busy`,
`closing` and `callInitial` call them. -/
inductive WorkerPc
  | unborn
  | identify
  | check (place : Place)
  | publish (place : Place)
  | acquire (place : Place)
  | release (place : Place)
  | callInitial
  | initial
  | loop
  | busy
  | run
  | checkCancel
  | selfTest
  | rebusy
  | recheck
  | sleeping
  | closing
  | final
  | dead
deriving DecidableEq

/-- The next step of the thread that owns the object; an `unpause` inside a `cancel` carries whether that waits. -/
inductive OwnerPc
  | idle
  | startTest
  | startState
  | startClean
  | startReset
  | startCreate
  | startHandle
  | pauseTest
  | pauseSet
  | pauseTake
  | unpauseTest (cancel : Option Bool)
  | unpauseClear (cancel : Option Bool)
  | unpauseState (cancel : Option Bool)
  | unpauseRelease (cancel : Option Bool)
  | cancelSet (wait : Bool)
  | join
  | joinLast
  | cleanUp
deriving DecidableEq

/-- The object, its owner, the threads created for it and the callbacks with the thread that has called them. -/
structure State where
  memory : Memory
  owner : OwnerPc
  workers : List WorkerPc
  log : List (Nat × Callback)
deriving DecidableEq

def init : State := ⟨⟨.THREAD_DEAD, false, false, false, 1, none⟩, .idle, [], []⟩

/-- What follows the look at `_do_pause`. -/
def next : Place → WorkerPc
  | .top => .callInitial
  | .initialised => .loop
  | .ran => .sleeping
  | .busy => .checkCancel

inductive WorkerEvent
  | step
  | initial (result : Bool)
  | run (result : Bool)
  | doStateCheck
deriving DecidableEq

/-- A step of `__threadLoop` by thread `i`, with the callbacks that it calls. -/
def workerStep (m : Memory) (i : Nat) : WorkerPc → WorkerEvent → Option (Memory × WorkerPc × List Callback)
  | .unborn, .step => some ({ m with _state := .THREAD_STARTING }, .identify, [])
  | .identify, .step => some ({ m with _thread_id := some i }, .check .top, [])
  | .check place, .step => some (m, if m._do_pause then .publish place else next place, [])
  | .publish place, .step => some ({ m with _state := .THREAD_PAUSED }, .acquire place, [])
  | .acquire place, .step =>
    if 0 < m._pauseSem then some ({ m with _pauseSem := m._pauseSem - 1 }, .release place, []) else none
  | .release place, .step => some ({ m with _pauseSem := Semaphore.release m._pauseSem }, next place, [])
  | .callInitial, .step => some (m, .initial, [.initial])
  | .initial, .initial result => some (m, if result then .check .initialised else .closing, [])
  | .loop, .step => some (m, if m._do_cancel then .closing else .busy, [])
  | .busy, .step => some ({ m with _state := .THREAD_BUSY }, .run, [.run])
  | .run, .run result => some (m, if result then .recheck else .closing, [])
  | .run, .doStateCheck => some (m, .check .busy, [])
  | .checkCancel, .step => some (m, if m._do_cancel then .selfTest else .rebusy, [])
  | .selfTest, .step => some (m, if m._thread_id = some i then .closing else .rebusy, [])
  | .rebusy, .step => some ({ m with _state := .THREAD_BUSY }, .run, [])
  | .recheck, .step => some (m, if m._do_cancel then .loop else .check .ran, [])
  | .sleeping, .step => some ({ m with _state := .THREAD_SLEEPING }, .loop, [])
  | .closing, .step => some ({ m with _state := .THREAD_CLOSING }, .final, [.final])
  | .final, .step => some ({ m with _state := .THREAD_DEAD }, .dead, [])
  | _, _ => none

/-- What follows an `unpause`. -/
def afterUnpause : Option Bool → OwnerPc
  | none => .idle
  | some wait => .cancelSet wait

/-- A step of the owner: the object, the next step, and whether a thread was created. -/
def ownerStep (m : Memory) : OwnerPc → Option (Memory × OwnerPc × Bool)
  | .idle => none
  | .startTest => some (m, if m._have_handle then .startState else .startReset, false)
  | .startState => some (m, if m._state ≠ .THREAD_DEAD then .idle else .startClean, false)
  | .startClean => some ({ m with _have_handle := false }, .startReset, false)
  | .startReset => some ({ m with _do_cancel := false }, .startCreate, false)
  | .startCreate => some (m, .startHandle, true)
  | .startHandle => some ({ m with _have_handle := true }, .idle, false)
  | .pauseTest => some (m, if m._do_pause then .idle else .pauseSet, false)
  | .pauseSet => some ({ m with _do_pause := true }, .pauseTake, false)
  | .pauseTake => some ({ m with _pauseSem := m._pauseSem - 1 }, .idle, false)
  | .unpauseTest k => some (m, if m._do_pause then .unpauseClear k else afterUnpause k, false)
  | .unpauseClear k => some ({ m with _do_pause := false }, .unpauseState k, false)
  | .unpauseState k => some (m, if m._state = .THREAD_PAUSED then .unpauseRelease k else afterUnpause k, false)
  | .unpauseRelease k => some ({ m with _pauseSem := Semaphore.release m._pauseSem }, afterUnpause k, false)
  | .cancelSet wait => some ({ m with _do_cancel := true }, if wait then .join else .idle, false)
  | .join => some (m, if m._state ≠ .THREAD_DEAD then .join else .cleanUp, false)
  | .joinLast => some (m, if m._state ≠ .THREAD_DEAD then .idle else .cleanUp, false)
  | .cleanUp => some ({ m with _have_handle := false }, .idle, false)

inductive Event
  | start
  | pause
  | unpause
  | cancel (wait : Bool)
  | owner
  | timeout
  | worker (i : Nat) (e : WorkerEvent)
deriving DecidableEq

def call (s : State) (pc : OwnerPc) : Option State := if s.owner = .idle then some { s with owner := pc } else none

/-- A step of the owner or of one of the threads, in any order. -/
def step (s : State) : Event → Option State
  | .start => call s .startTest
  | .pause => call s .pauseTest
  | .unpause => call s (.unpauseTest none)
  | .cancel wait => call s (.unpauseTest (some wait))
  | .timeout => if s.owner = .join then some { s with owner := .joinLast } else none
  | .owner =>
    match ownerStep s.memory s.owner with
    | some (m, pc, created) =>
      some { s with memory := m, owner := pc, workers := if created then s.workers ++ [.unborn] else s.workers }
    | none => none
  | .worker i e =>
    match s.workers[i]? with
    | some pc =>
      match workerStep s.memory i pc e with
      | some (m, pc, calls) =>
        some { s with memory := m, workers := s.workers.set i pc, log := s.log ++ calls.map fun c => (i, c) }
      | none => none
    | none => none

/-- The callbacks that thread `i` has called. -/
def State.calls (s : State) (i : Nat) : List Callback := (s.log.filter fun c => c.1 = i).map Prod.snd

/-- All that a thread calls whose loop goes `n` times through `run`. -/
def session (n : Nat) : List Callback := .initial :: List.replicate n .run ++ [.final]

/-- How far a thread is: in front of `initial`, behind the call of `final`, or between them. -/
inductive Phase
  | before
  | inside
  | after

def WorkerPc.phase : WorkerPc → Phase
  | .unborn | .identify | .callInitial => .before
  | .check place | .publish place | .acquire place | .release place =>
    match place with
    | .top => .before
    | _ => .inside
  | .final | .dead => .after
  | _ => .inside

/-- The callbacks that belong to a phase. -/
def Phase.Called : Phase → List Callback → Prop
  | .before, l => l = []
  | .inside, l => ∃ n, l = .initial :: List.replicate n .run
  | .after, l => ∃ n, l = session n

theorem phase_next (place : Place) : (next place).phase = (WorkerPc.check place).phase := by
  cases place <;> rfl

/-- What a step does to the phase of its thread, and what it calls. -/
inductive Moves : Phase → Phase → List Callback → Prop
  | stay (p : Phase) : Moves p p []
  | initial : Moves .before .inside [.initial]
  | run : Moves .inside .inside [.run]
  | final : Moves .inside .after [.final]

theorem workerStep_moves {m m' : Memory} {i : Nat} {pc pc' : WorkerPc} {e : WorkerEvent} {calls : List Callback}
    (h : workerStep m i pc e = some (m', pc', calls)) : Moves pc.phase pc'.phase calls := by
  have hphase : ∀ {p q : Phase}, p = q → Moves q p [] := by
    rintro p q rfl
    exact .stay p
  unfold workerStep at h
  split at h
  case h_5 =>
    split at h
    · cases h
      exact hphase rfl
    · cases h
  case h_3 place =>
    cases h
    split
    · exact hphase rfl
    · exact hphase (phase_next place)
  case h_6 place =>
    cases h
    exact hphase (phase_next place)
  case h_7 =>
    cases h
    exact .initial
  case h_10 =>
    cases h
    exact .run
  case h_18 =>
    cases h
    exact .final
  all_goals
    cases h
  all_goals
    apply hphase
    first
      | rfl
      | split <;> rfl

/-- The callbacks of a thread and its phase go together. -/
theorem Moves.called {p q : Phase} {calls l : List Callback} (h : Moves p q calls) (hl : p.Called l) :
    q.Called (l ++ calls) := by
  cases h with
  | stay =>
    rw [List.append_nil]
    exact hl
  | initial =>
    rw [show l = [] from hl]
    exact ⟨0, rfl⟩
  | run =>
    obtain ⟨n, rfl⟩ := hl
    exact ⟨n + 1, by rw [List.replicate_succ', List.cons_append]⟩
  | final =>
    obtain ⟨n, rfl⟩ := hl
    exact ⟨n, rfl⟩

/-- What every step leaves true: each thread has called what belongs to its phase, and only threads that were created
have called anything. -/
structure Called (s : State) : Prop where
  calls : ∀ (i : Nat) (pc : WorkerPc), s.workers[i]? = some pc → pc.phase.Called (s.calls i)
  created : ∀ c ∈ s.log, c.1 < s.workers.length

theorem called_init : Called init := ⟨by simp [init], by simp [init]⟩

theorem calls_append (log : List (Nat × Callback)) (i j : Nat) (calls : List Callback) :
    ((log ++ calls.map fun c => (i, c)).filter fun c => c.1 = j).map Prod.snd =
      (log.filter fun c => c.1 = j).map Prod.snd ++ if i = j then calls else [] := by
  rw [List.filter_append, List.map_append]
  congr 1
  split
  next h =>
    subst h
    rw [List.filter_eq_self.mpr (by simp), List.map_map]
    exact List.map_id calls
  next h =>
    rw [List.filter_eq_nil_iff.mpr (by simp [h])]
    rfl

theorem Called.worker {s s' : State} {i : Nat} {e : WorkerEvent} (h : Called s) (hs : step s (.worker i e) = some s') :
    Called s' := by
  simp only [step] at hs
  split at hs
  next pc hpc =>
    split at hs
    next m pc' calls hw =>
      obtain rfl := Option.some.inj hs
      have hmoves := workerStep_moves hw
      obtain ⟨hi, -⟩ := List.getElem?_eq_some_iff.mp hpc
      constructor
      · intro j pcj hj
        show pcj.phase.Called (((s.log ++ calls.map fun c => (i, c)).filter fun c => c.1 = j).map Prod.snd)
        rw [calls_append]
        by_cases hij : i = j
        · subst hij
          rw [List.getElem?_set_self hi] at hj
          obtain rfl := Option.some.inj hj
          rw [if_pos rfl]
          exact hmoves.called (h.calls i pc hpc)
        · rw [List.getElem?_set_ne hij] at hj
          rw [if_neg hij, List.append_nil]
          exact h.calls j pcj hj
      · intro c hc
        show c.1 < (s.workers.set i pc').length
        rw [List.length_set]
        obtain hc | hc := List.mem_append.mp hc
        · exact h.created c hc
        · obtain ⟨d, -, rfl⟩ := List.mem_map.mp hc
          exact hi
    next => cases hs
  next => cases hs

/-- A thread that has just been created has called nothing. -/
theorem Called.create {s : State} (h : Called s) (m : Memory) (pc : OwnerPc) :
    Called { s with memory := m, owner := pc, workers := s.workers ++ [.unborn] } := by
  constructor
  · intro i pci hi
    by_cases hlt : i < s.workers.length
    · rw [List.getElem?_append_left hlt] at hi
      exact h.calls i pci hi
    · have hlen := (List.getElem?_eq_some_iff.mp hi).1
      rw [List.length_append, List.length_singleton] at hlen
      obtain rfl : i = s.workers.length := by omega
      rw [List.getElem?_concat_length] at hi
      obtain rfl := Option.some.inj hi
      have hnone : s.log.filter (fun c => c.1 = s.workers.length) = [] :=
        List.filter_eq_nil_iff.mpr fun c hc => by simpa using Nat.ne_of_lt (h.created c hc)
      show (s.log.filter fun c => c.1 = s.workers.length).map Prod.snd = []
      rw [hnone]
      rfl
  · intro c hc
    show c.1 < (s.workers ++ [WorkerPc.unborn]).length
    rw [List.length_append]
    exact Nat.lt_add_right _ (h.created c hc)

theorem Called.call {s s' : State} {pc : OwnerPc} (h : Called s) (hs : Lifecycle.call s pc = some s') : Called s' := by
  unfold Lifecycle.call at hs
  split at hs
  · obtain rfl := Option.some.inj hs
    exact ⟨h.calls, h.created⟩
  · cases hs

theorem Called.step {s s' : State} {e : Event} (h : Called s) (hs : step s e = some s') : Called s' := by
  cases e with
  | start => exact h.call hs
  | pause => exact h.call hs
  | unpause => exact h.call hs
  | cancel wait => exact h.call hs
  | timeout =>
    simp only [Lifecycle.step] at hs
    split at hs
    · obtain rfl := Option.some.inj hs
      exact ⟨h.calls, h.created⟩
    · cases hs
  | owner =>
    simp only [Lifecycle.step] at hs
    split at hs
    next m pc created ho =>
      obtain rfl := Option.some.inj hs
      cases created with
      | true => exact h.create m pc
      | false => exact ⟨h.calls, h.created⟩
    next => cases hs
  | worker i e => exact h.worker hs

theorem Called.sessions {s : State} (h : Called s) {i : Nat} {pc : WorkerPc} (hi : s.workers[i]? = some pc) :
    ∃ n, s.calls i <+: session n ∧ (pc = .dead → s.calls i = session n) := by
  have hcalled := h.calls i pc hi
  cases hp : pc.phase with
  | before =>
    rw [hp] at hcalled
    refine ⟨0, ?_, ?_⟩
    · rw [show s.calls i = [] from hcalled]
      exact List.nil_prefix
    · rintro rfl
      cases hp
  | inside =>
    rw [hp] at hcalled
    obtain ⟨n, hn⟩ := hcalled
    refine ⟨n, ?_, ?_⟩
    · rw [hn]
      exact List.prefix_append _ _
    · rintro rfl
      cases hp
  | after =>
    rw [hp] at hcalled
    obtain ⟨n, hn⟩ := hcalled
    exact ⟨n, hn ▸ List.prefix_refl _, fun _ => hn⟩

/-- A thread that is cancelled after it has gone through `run` once. -/
def cancelled : List Event :=
  [.start, .owner, .owner, .owner, .owner] ++ List.replicate 4 (.worker 0 .step) ++ [.worker 0 (.initial true)] ++
    List.replicate 3 (.worker 0 .step) ++ [.cancel false, .owner, .owner, .worker 0 (.run true)] ++
    List.replicate 4 (.worker 0 .step)

end Srl.Thread.Lifecycle
