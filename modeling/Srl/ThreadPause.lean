import Srl.Transition
import Srl.Semaphore

namespace Srl.Thread

open Transition

inductive THREAD_STATE
  | THREAD_DEAD
  | THREAD_CLOSING
  | THREAD_STARTING
  | THREAD_SLEEPING
  | THREAD_PAUSED
  | THREAD_BUSY
deriving DecidableEq

/-- The next step of the thread that calls `pause` and `unpause`. -/
inductive ControlPc
  | idle
  | pauseTest
  | pauseSet
  | pauseTake
  | unpauseTest
  | unpauseClear
  | unpauseState
  | unpauseRelease
deriving DecidableEq

/-- The places where a thread looks at `_do_pause`; `busy` is `doStateCheck`, called from `run`. -/
inductive Place
  | top
  | initialised
  | ran
  | busy
deriving DecidableEq

/-- The next step of the thread itself: `publish`, `acquire` and `release` are those of `_doPause`. -/
inductive WorkerPc
  | unstarted
  | starting
  | check (place : Place)
  | publish (place : Place)
  | acquire (place : Place)
  | release (place : Place)
  | initial
  | work
  | run
  | rework
  | sleep
  | pauseTest
  | pauseSet
  | pauseTake
  | closing
  | dying
  | dead
deriving DecidableEq

structure State where
  _do_pause : Bool
  _state : THREAD_STATE
  _pauseSem : Nat
  control : ControlPc
  worker : WorkerPc
deriving DecidableEq

def init : State := ⟨false, .THREAD_DEAD, 1, .idle, .unstarted⟩

/-- What follows the look at `_do_pause`. -/
def Place.next : Place → WorkerPc
  | .top => .initial
  | .initialised => .work
  | .ran => .sleep
  | .busy => .rework

def controlStep (s : State) : Option State :=
  match s.control with
  | .idle => none
  | .pauseTest => some { s with control := if s._do_pause then .idle else .pauseSet }
  | .pauseSet => some { s with _do_pause := true, control := .pauseTake }
  | .pauseTake => some { s with _pauseSem := s._pauseSem - 1, control := .idle }
  | .unpauseTest => some { s with control := if s._do_pause then .unpauseClear else .idle }
  | .unpauseClear => some { s with _do_pause := false, control := .unpauseState }
  | .unpauseState => some { s with control := if s._state = .THREAD_PAUSED then .unpauseRelease else .idle }
  | .unpauseRelease => some { s with _pauseSem := Semaphore.release s._pauseSem, control := .idle }

/-- A step of the thread; `initial` and `run` are left to the actions that give their results. -/
def workerStep (s : State) : Option State :=
  match s.worker with
  | .unstarted | .initial | .run | .dead => none
  | .starting => some { s with _state := .THREAD_STARTING, worker := .check .top }
  | .check place => some { s with worker := if s._do_pause then .publish place else place.next }
  | .publish place => some { s with _state := .THREAD_PAUSED, worker := .acquire place }
  | .acquire place =>
    if 0 < s._pauseSem then some { s with _pauseSem := s._pauseSem - 1, worker := .release place } else none
  | .release place => some { s with _pauseSem := Semaphore.release s._pauseSem, worker := place.next }
  | .work | .rework => some { s with _state := .THREAD_BUSY, worker := .run }
  | .sleep => some { s with _state := .THREAD_SLEEPING, worker := .work }
  | .pauseTest => some { s with worker := if s._do_pause then .check .top else .pauseSet }
  | .pauseSet => some { s with _do_pause := true, worker := .pauseTake }
  | .pauseTake => some { s with _pauseSem := s._pauseSem - 1, worker := .check .top }
  | .closing => some { s with _state := .THREAD_CLOSING, worker := .dying }
  | .dying => some { s with _state := .THREAD_DEAD, worker := .dead }

inductive Event
  | pause
  | unpause
  | control
  | start
  | worker
  | initial (result : Bool)
  | run (result : Bool)
  | doStateCheck
deriving DecidableEq

/-- `__managedLoop` or `__threadLoop`; a manager pauses the thread in `task_completed`. -/
def step (managed : Bool) (s : State) : Event → Option State
  | .pause => if s.control = .idle then some { s with control := .pauseTest } else none
  | .unpause => if s.control = .idle then some { s with control := .unpauseTest } else none
  | .control => controlStep s
  | .start => if s.worker = .unstarted then some { s with worker := .starting } else none
  | .worker => workerStep s
  | .initial result =>
    if s.worker = .initial then
      some { s with worker := if result then .check .initialised else if managed then .check .top else .closing }
    else none
  | .run result =>
    if s.worker = .run then
      some { s with worker := if result then .check .ran else if managed then .pauseTest else .closing }
    else none
  | .doStateCheck => if s.worker = .run then some { s with worker := .check .busy } else none

/-- The thread waits for a permit that nobody is going to give: the pause is over and the semaphore is empty. -/
def State.Lost (s : State) : Prop :=
  s.control = .idle ∧ s._do_pause = false ∧ (∃ place, s.worker = .acquire place) ∧ s._pauseSem = 0

/-- `unpause` does not miss a thread that saw the flag and has not yet said that it pauses. -/
def Noticed (s : State) : Event → Prop
  | .control => s.control = .unpauseState → s._state ≠ .THREAD_PAUSED → (∃ place, s.worker = .publish place) →
      s._pauseSem ≠ 0
  | _ => True

def WorkerPc.Pausing : WorkerPc → Prop
  | .publish _ | .acquire _ => True
  | _ => False

/-- A thread on its way into a pause that was called off has a permit, or is about to be given one. -/
structure Kept (s : State) : Prop where
  permit : s.worker.Pausing → s._do_pause = false →
    s.control = .unpauseState ∨ s.control = .unpauseRelease ∨ 0 < s._pauseSem
  asked : s.control = .pauseTake → s._do_pause = true
  published : ∀ place, s.worker = .acquire place → s._state = .THREAD_PAUSED

theorem kept_init : Kept init := ⟨fun h => h.elim, by simp [init], by simp [init]⟩

theorem Place.not_pausing (place : Place) : ¬ place.next.Pausing ∧ ∀ place', place.next ≠ .acquire place' := by
  cases place <;> simp [Place.next, WorkerPc.Pausing]

theorem Kept.controlStep {s s' : State} (h : Kept s) (hok : Noticed s .control) (hs : controlStep s = some s') :
    Kept s' := by
  obtain ⟨permit, asked, published⟩ := h
  unfold Thread.controlStep at hs
  cases hc : s.control with
  | idle => simp [hc] at hs
  | unpauseState =>
    simp only [hc, Option.some.injEq] at hs
    subst hs
    split
    next hpaused => exact ⟨fun _ _ => Or.inr (Or.inl rfl), by simp, published⟩
    next hother =>
      refine ⟨fun hw _ => Or.inr (Or.inr ?_), by simp, published⟩
      cases hworker : s.worker with
      | publish place => exact Nat.pos_of_ne_zero (hok hc hother ⟨place, hworker⟩)
      | acquire place => exact absurd (published place hworker) hother
      | _ =>
        simp only [hworker] at hw
        exact hw.elim
  | unpauseRelease =>
    simp only [hc, Option.some.injEq] at hs
    subst hs
    exact ⟨fun _ _ => Or.inr (Or.inr (Semaphore.release_pos _)), by simp, published⟩
  | unpauseClear =>
    simp only [hc, Option.some.injEq] at hs
    subst hs
    exact ⟨fun _ _ => Or.inl rfl, by simp, published⟩
  | pauseTake =>
    simp only [hc, Option.some.injEq] at hs
    subst hs
    have hasked := asked hc
    exact ⟨fun _ hf => absurd hasked (by simp [show s._do_pause = false from hf]), by simp, published⟩
  | pauseSet =>
    simp only [hc, Option.some.injEq] at hs
    subst hs
    exact ⟨by simp, by simp, published⟩
  | pauseTest | unpauseTest =>
    simp only [hc, Option.some.injEq] at hs
    subst hs
    refine ⟨fun hw hf => ?_, by simp only; split <;> simp, published⟩
    have hpermit := permit hw hf
    simp only [hc, reduceCtorEq, false_or] at hpermit
    exact Or.inr (Or.inr hpermit)

theorem Kept.workerStep {s s' : State} (h : Kept s) (hs : workerStep s = some s') : Kept s' := by
  obtain ⟨permit, asked, published⟩ := h
  unfold Thread.workerStep at hs
  cases hw : s.worker with
  | unstarted | initial | run | dead => simp [hw] at hs
  | check place =>
    simp only [hw, Option.some.injEq] at hs
    subst hs
    split
    next hf => exact ⟨fun _ hn => absurd hf (by simp [show s._do_pause = false from hn]), asked, by simp⟩
    next => exact ⟨fun hp => absurd hp place.not_pausing.1, asked, fun p hp => absurd hp (place.not_pausing.2 p)⟩
  | publish place =>
    simp only [hw, Option.some.injEq] at hs
    subst hs
    exact ⟨fun _ => permit (by rw [hw]; trivial), asked, fun _ _ => rfl⟩
  | acquire place =>
    simp only [hw] at hs
    split at hs
    next => cases hs; exact ⟨fun hp => hp.elim, asked, by simp⟩
    next => cases hs
  | release place =>
    simp only [hw, Option.some.injEq] at hs
    subst hs
    exact ⟨fun hp => absurd hp place.not_pausing.1, asked, fun p hp => absurd hp (place.not_pausing.2 p)⟩
  | pauseSet =>
    simp only [hw, Option.some.injEq] at hs
    subst hs
    exact ⟨fun hp => hp.elim, fun _ => rfl, by simp⟩
  | pauseTest =>
    simp only [hw, Option.some.injEq] at hs
    subst hs
    split
    all_goals exact ⟨fun hp => hp.elim, asked, by simp⟩
  | _ =>
    simp only [hw, Option.some.injEq] at hs
    subst hs
    exact ⟨fun hp => hp.elim, asked, by simp⟩

theorem Kept.step {managed : Bool} {s s' : State} {a : Event} (h : Kept s) (hok : Noticed s a)
    (hs : step managed s a = some s') : Kept s' := by
  cases a with
  | control => exact h.controlStep hok hs
  | worker => exact h.workerStep hs
  | pause | unpause =>
    simp only [Thread.step] at hs
    split at hs
    next hc =>
      cases hs
      refine ⟨fun hw hf => ?_, by simp, h.published⟩
      have hpermit := h.permit hw hf
      simp only [hc, reduceCtorEq, false_or] at hpermit
      exact Or.inr (Or.inr hpermit)
    next => cases hs
  | initial result | run result =>
    simp only [Thread.step] at hs
    split at hs
    next =>
      cases hs
      split
      next => exact ⟨fun hp => hp.elim, h.asked, by simp⟩
      next =>
        split
        all_goals exact ⟨fun hp => hp.elim, h.asked, by simp⟩
    next => cases hs
  | start | doStateCheck =>
    simp only [Thread.step] at hs
    split at hs
    next => cases hs; exact ⟨fun hp => hp.elim, h.asked, by simp⟩
    next => cases hs

variable {managed : Bool} {as : List Event} {s : State}

/-- A thread that `unpause` missed is lost as soon as it goes on. -/
theorem lost_of_missed {place : Place} (hc : s.control = .unpauseState) (hf : s._do_pause = false)
    (hs : s._state ≠ .THREAD_PAUSED) (hw : s.worker = .publish place) (hp : s._pauseSem = 0) :
    ∃ s', run (step managed) s [.control, .worker] = some s' ∧ s'.Lost := by
  refine ⟨{ s with control := .idle, _state := .THREAD_PAUSED, worker := .acquire place }, ?_, rfl, hf,
    ⟨place, rfl⟩, hp⟩
  simp [run, step, controlStep, workerStep, hc, hs, hw]

/-- The thread has run once and sees the flag; `unpause` then still finds it busy. -/
def missed : List Event :=
  [.start, .worker, .worker, .initial true, .worker, .worker, .pause, .control, .control, .control, .run true, .worker,
    .unpause, .control, .control, .control, .worker]

end Srl.Thread
