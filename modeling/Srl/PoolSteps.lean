import Srl.Pool

namespace Srl.Pool

variable {Client Task : Type} [DecidableEq Client] {cfg : Config} {s s' : State Client Task}

/-- What can happen in a state, and what comes of it. -/
inductive Step (cfg : Config) (s : State Client Task) : Event Client Task → State Client Task → Prop
  | runTask (c : Client) (task : Task) : s.client c = .idle → Step cfg s (.runTask c task)
      ({ s with submitted := Function.update s.submitted c (s.submitted c ++ [task]) }.goto c (.enter task false))
  | waitAll (c : Client) : s.client c = .idle → cfg.waits = true → Step cfg s (.waitAll c) (s.goto c .waitBusy)
  | enter (c : Client) (task : Task) (retry : Bool) : s.client c = .enter task retry → s.lock = .free →
      Step cfg s (.client c) ({ s with lock := .getThread c .pick }.goto c (.inside task retry))
  | get (c : Client) (task : Task) (retry : Bool) (pc : GetPc) : s.client c = .inside task retry →
      s.lock = .getThread c pc → Step cfg s (.client c) (getStep cfg s c task retry pc)
  | acquire (c : Client) (task : Task) : s.client c = .block task → 0 < s.blocker →
      Step cfg s (.client c) ({ s with blocker := s.blocker - 1 }.goto c (.enter task true))
  | hand (c : Client) (task : Task) (t : Nat) : s.client c = .hand task t → Step cfg s (.client c) ({ s with
      task := Function.update s.task t (some task)
      handed := Function.update s.handed c (s.handed c ++ [(task, t)]) }.goto c (.wake t))
  | wake (c : Client) (t : Nat) : s.client c = .wake t →
      Step cfg s (.client c) ((if s.worker t = .paused then s.become t .running else s).goto c .idle)
  | waitDone (c : Client) : s.client c = .waitBusy → s.busy = [] → Step cfg s (.client c) (s.goto c .idle)
  | waitBusy (c : Client) : s.client c = .waitBusy → s.busy ≠ [] → Step cfg s (.client c) (s.goto c .waitTest)
  | waitPass (c : Client) : s.client c = .waitTest → 0 < s.waiter →
      Step cfg s (.client c) ({ s with waiter := s.waiter - 1 }.goto c .waitBack)
  | waitFail (c : Client) : s.client c = .waitTest → s.waiter = 0 → Step cfg s (.client c) (s.goto c .waitAcquire)
  | waitAcquire (c : Client) : s.client c = .waitAcquire → 0 < s.waiter →
      Step cfg s (.client c) ({ s with waiter := s.waiter - 1 }.goto c .waitRelease)
  | waitReturn (c : Client) : s.client c = .waitBack ∨ s.client c = .waitRelease →
      Step cfg s (.client c) ({ s with waiter := Semaphore.release s.waiter }.goto c .idle)
  | refuse (c : Client) (task : Task) (t : Nat) : s.client c = .hand task t → cfg.waits = false →
      Step cfg s (.refuse c) (s.goto c .stopped)
  | finish (t : Nat) : s.worker t = .running → Step cfg s (.finish t)
      ({ s with task := if cfg.waits then s.task else Function.update s.task t none }.become t .finishing)
  | complete (t : Nat) : s.worker t = .finishing → s.lock = .free →
      Step cfg s (.worker t) ({ s with lock := .task_completed t .detach }.become t .completing)
  | done (t : Nat) (pc : DonePc) : s.worker t = .completing → s.lock = .task_completed t pc →
      Step cfg s (.worker t) (doneStep cfg s t pc)

theorem clientStep_cases {c : Client} (h : clientStep cfg s c = some s') : Step cfg s (.client c) s' := by
  unfold clientStep at h
  split at h
  next => cases h
  next => cases h
  next => cases h
  next task retry hc =>
    split at h
    next hl => cases h; exact .enter c task retry hc hl
    next => cases h
  next task retry hc =>
    split at h
    next pc hl =>
      split at h
      next he => cases h; exact .get c task retry pc hc (he ▸ hl)
      next => cases h
    next => cases h
  next task hc =>
    split at h
    next hb => cases h; exact .acquire c task hc hb
    next => cases h
  next task t hc => cases h; exact .hand c task t hc
  next t hc => cases h; exact .wake c t hc
  next hc =>
    cases h
    split
    next hb => exact .waitDone c hc hb
    next hb => exact .waitBusy c hc hb
  next hc =>
    cases h
    split
    next hw => exact .waitPass c hc hw
    next hw =>
      have hzero : s.waiter = 0 := by omega
      have hs : { s with waiter := s.waiter - 1 } = s := by rw [hzero, Nat.zero_sub, ← hzero]
      rw [hs]
      exact .waitFail c hc hzero
  next hc =>
    split at h
    next hw => cases h; exact .waitAcquire c hc hw
    next => cases h
  next hc => cases h; exact .waitReturn c (Or.inl hc)
  next hc => cases h; exact .waitReturn c (Or.inr hc)

theorem workerStep_cases {t : Nat} (h : workerStep cfg s t = some s') : Step cfg s (.worker t) s' := by
  unfold workerStep at h
  split at h
  next hw hl => cases h; exact .complete t hw hl
  next pc hw hl =>
    split at h
    next he => cases h; exact .done t pc hw (he ▸ hl)
    next => cases h
  next => cases h

theorem step_cases {a : Event Client Task} (h : step cfg s a = some s') : Step cfg s a s' := by
  cases a with
  | runTask c task =>
    simp only [step] at h
    split at h
    next hc => cases h; exact .runTask c task hc
    next => cases h
  | waitAll c =>
    simp only [step] at h
    split at h
    next hc =>
      split at h
      next hw => cases h; exact .waitAll c hc hw
      next => cases h
    next => cases h
  | client c => exact clientStep_cases h
  | refuse c =>
    simp only [step] at h
    split at h
    next task t hc =>
      split at h
      next => cases h
      next hw => cases h; exact .refuse c task t hc (by simpa using hw)
    next => cases h
  | finish t =>
    simp only [step] at h
    split at h
    next hw => cases h; exact .finish t hw
    next => cases h
  | worker t => exact workerStep_cases h

end Srl.Pool
