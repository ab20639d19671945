import Srl.ThreadPool

namespace Srl

open Transition

namespace Pool

variable {Task : Type} {cfg : Config} {s s' : State Unit Task} {t : Nat} {task : Task} {retry : Bool}

/-- The permits that a test of `_waiter`, or a return from it, still has to give back. -/
def ClientPc.taken : ClientPc Task → Nat
  | .waitBack | .waitRelease => 1
  | _ => 0

def Lock.taken {Client : Type} : Lock Client → Nat
  | .task_completed _ .waiterBack => 1
  | _ => 0

/-- `task_completed` is past the removal and before its loop on `_waiter`. -/
def DonePc.Between : DonePc → Prop
  | .add | .check | .blockerTest | .blockerBack | .blockerRelease | .busyTest => True
  | _ => False

def DonePc.Loops : DonePc → Prop
  | .waiterTest | .waiterRelease | .waiterBack => True
  | _ => False

/-- `_waiter` has one permit at most, those on the way back counted, and none while a thread is busy. -/
structure Waits (s : State Unit Task) : Prop where
  permits : s.waiter + (s.client ()).taken + s.lock.taken ≤ 1
  busy : s.busy ≠ [] → s.waiter + (s.client ()).taken + s.lock.taken = 0
  adding : ∀ c t, s.lock = .getThread c (.add t) → s.waiter = 0
  between : ∀ t pc, s.lock = .task_completed t pc → pc.Between → s.waiter + (s.client ()).taken = 0
  loops : ∀ t pc, s.lock = .task_completed t pc → pc.Loops → (s.client ()).taken = 0 ∧ s.busy = []
  releasing : ∀ t, s.lock = .task_completed t .waiterRelease → s.waiter = 0

/-- `waitAll` takes no permit while `task_completed` is at the test after its release. -/
def Patient {Client : Type} (s : State Client Task) : Event Client Task → Prop
  | .client c => s.client c = .waitTest ∨ s.client c = .waitAcquire → 0 < s.waiter →
      ∀ t, s.lock ≠ .task_completed t .waiterTest
  | _ => True

theorem waits_init : Waits (init cfg : State Unit Task) := by
  rw [init_eq]
  exact ⟨by simp [ClientPc.taken, Lock.taken], by simp, by simp, by simp, by simp, by simp⟩

theorem Waits.getStep {pc : GetPc} (h : Waits s) (hwaits : cfg.waits = true) (hc : s.client () = .inside task retry)
    (hl : s.lock = .getThread () pc) : Waits (getStep cfg s () task retry pc) := by
  obtain ⟨permits, busy, adding, between, loops, releasing⟩ := h
  rw [hc, hl] at permits busy
  simp only [ClientPc.taken, Lock.taken, Nat.add_zero] at permits busy
  cases pc with
  | pick =>
    simp only [Pool.getStep]
    split
    next =>
      constructor
      all_goals grind [ClientPc.taken, Lock.taken]
    next =>
      split
      all_goals
        constructor
        all_goals grind [ClientPc.taken, Lock.taken]
  | full | reach t | first t | add t | unlock t =>
    simp only [Pool.getStep, hwaits, if_true]
    constructor
    all_goals grind [ClientPc.taken, Lock.taken]

theorem Waits.doneStep {pc : DonePc} (h : Waits s) (hs : Sound s) (hl : s.lock = .task_completed t pc) :
    Waits (doneStep cfg s t pc) := by
  obtain ⟨permits, busy, adding, between, loops, releasing⟩ := h
  rw [hl] at permits busy
  have hbetween := between t pc hl
  have hloops := loops t pc hl
  cases pc with
  | detach =>
    have hbusy := hs.removing t (Or.inl hl)
    simp only [Pool.doneStep]
    constructor
    all_goals grind [Lock.taken, DonePc.Between, DonePc.Loops]
  | remove =>
    have hbusy := hs.removing t (Or.inr hl)
    have hzero := busy (List.ne_nil_of_mem hbusy)
    simp only [Pool.doneStep, if_pos hbusy]
    constructor
    all_goals grind [Lock.taken, DonePc.Between, DonePc.Loops]
  | waiterBack =>
    have hzero : s.waiter = 0 := by
      simp only [Lock.taken] at permits
      omega
    simp only [Pool.doneStep, hzero, Semaphore.release_of_le 0 (Nat.zero_le 1)]
    constructor
    all_goals grind [Lock.taken, DonePc.Between, DonePc.Loops]
  | waiterRelease =>
    have hzero := releasing t hl
    simp only [Pool.doneStep, hzero, Semaphore.release_of_le 0 (Nat.zero_le 1)]
    constructor
    all_goals grind [Lock.taken, DonePc.Between, DonePc.Loops]
  | check | blockerTest | busyTest | waiterTest =>
    simp only [Pool.doneStep]
    split
    all_goals
      constructor
      all_goals grind [Lock.taken, DonePc.Between, DonePc.Loops]
  | add | blockerBack | blockerRelease | unlock | throw =>
    simp only [Pool.doneStep, State.become]
    constructor
    all_goals grind [Lock.taken, DonePc.Between, DonePc.Loops]

theorem Waits.goto {pc : ClientPc Task} {b : Nat} {given : Nat → Option Task} {submitted : Unit → List Task}
    {handed : Unit → List (Task × Nat)} (h : Waits s) (hpc : pc.taken = (s.client ()).taken) :
    Waits (State.goto { s with
      blocker := b, task := given, submitted := submitted, handed := handed } () pc) := by
  obtain ⟨permits, busy, adding, between, loops, releasing⟩ := h
  rw [← hpc] at permits busy
  refine ⟨permits, busy, adding, ?_, ?_, releasing⟩
  all_goals grind

/-- A permit goes into the hands of `waitAll`, but not between a release and its test. -/
theorem Waits.take {pc : ClientPc Task} (h : Waits s) (hpc : pc.taken = 1) (hc : (s.client ()).taken = 0)
    (hw : 0 < s.waiter) (hl : ∀ t, s.lock ≠ .task_completed t .waiterTest) :
    Waits (State.goto { s with waiter := s.waiter - 1 } () pc) := by
  obtain ⟨permits, busy, adding, between, loops, releasing⟩ := h
  have hpermits : s.waiter - 1 + pc.taken + s.lock.taken = s.waiter + (s.client ()).taken + s.lock.taken := by omega
  rw [← hpermits] at permits busy
  refine ⟨permits, busy, ?_, ?_, ?_, ?_⟩
  · intro c t he
    exact absurd (adding c t he) (Nat.ne_of_gt hw)
  · intro t pc' he hb
    have hzero := between t pc' he hb
    omega
  · intro t pc' he hloop
    exfalso
    cases pc' with
    | waiterTest => exact hl t he
    | waiterRelease => exact absurd (releasing t he) (Nat.ne_of_gt hw)
    | waiterBack =>
      rw [show s.lock = _ from he] at permits
      simp only [Lock.taken, hpc] at permits
      omega
    | _ => exact hloop
  · intro t he
    exact absurd (releasing t he) (Nat.ne_of_gt hw)

/-- `waitAll` gives its permit back. -/
theorem Waits.giveBack (h : Waits s) (hs : Sound s) (hc : (s.client ()).taken = 1) :
    Waits (State.goto { s with waiter := Semaphore.release s.waiter } () .idle) := by
  obtain ⟨permits, busy, adding, between, loops, releasing⟩ := h
  have hzero : s.waiter = 0 := by omega
  have hout : ∀ c pc, s.lock ≠ .getThread c pc := by
    intro c pc hl
    obtain ⟨task, retry, hi⟩ := hs.getting c pc hl
    rw [hi] at hc
    cases hc
  rw [hzero] at permits busy
  rw [hzero, Semaphore.release_of_le 0 (Nat.zero_le 1)]
  constructor
  case releasing =>
    intro t hl
    have htaken := (loops t .waiterRelease hl trivial).1
    omega
  all_goals grind [ClientPc.taken]

theorem Waits.step {a : Event Unit Task} (h : Waits s) (hs : Sound s) (hwaits : cfg.waits = true) (hok : Patient s a)
    (hstep : step cfg s a = some s') : Waits s' := by
  cases step_cases hstep with
  | enter c task retry hc hl =>
    obtain ⟨permits, busy, adding, between, loops, releasing⟩ := h
    rw [hc, hl] at permits busy
    refine ⟨permits, busy, ?_, ?_, ?_, ?_⟩
    all_goals simp [State.goto]
  | get c task retry pc hc hl => exact h.getStep hwaits hc hl
  | waitPass c hc hw => exact h.take rfl (by rw [hc]; rfl) hw (hok (Or.inl hc) hw)
  | waitAcquire c hc hw => exact h.take rfl (by rw [hc]; rfl) hw (hok (Or.inr hc) hw)
  | waitReturn c hc =>
    apply h.giveBack hs
    cases hc with
    | inl hc => rw [hc]; rfl
    | inr hc => rw [hc]; rfl
  | wake c t hc =>
    have hgo := @Waits.goto _ s .idle s.blocker s.task s.submitted s.handed h (by rw [hc]; rfl)
    split
    · exact ⟨hgo.permits, hgo.busy, hgo.adding, hgo.between, hgo.loops, hgo.releasing⟩
    · exact hgo
  | runTask c task hc | waitAll c hc | acquire c task hc | hand c task t hc | refuse c task t hc
  | waitDone c hc | waitBusy c hc | waitFail c hc => exact h.goto (by rw [hc]; rfl)
  | finish t hw => exact ⟨h.permits, h.busy, h.adding, h.between, h.loops, h.releasing⟩
  | complete t hw hl =>
    obtain ⟨permits, busy, adding, between, loops, releasing⟩ := h
    have hbusy := busy (List.ne_nil_of_mem (hs.running t (Or.inr hw)))
    rw [hl] at permits hbusy
    refine ⟨permits, fun _ => hbusy, ?_, ?_, ?_, ?_⟩
    all_goals simp [State.become, DonePc.Between, DonePc.Loops]
  | done t pc hw hl => exact h.doneStep hs hl

/-- `waitAll` has been called and has no permit. -/
def ClientPc.Waiting : ClientPc Task → Prop
  | .waitBusy | .waitTest | .waitAcquire => True
  | _ => False

theorem waiting_step {a : Event Unit Task} (h : (s.client ()).Waiting) (hw : Waits s) (hbusy : s.busy ≠ [])
    (hstep : step cfg s a = some s') : (s'.client ()).Waiting := by
  have hzero : s.waiter = 0 := by
    have hpermits := hw.busy hbusy
    omega
  cases step_cases hstep with
  | waitBusy c | waitFail c => trivial
  | waitDone c hc hnil => exact absurd hnil hbusy
  | waitPass c hc hpos | waitAcquire c hc hpos => omega
  | waitReturn c hc =>
    cases hc with
    | inl hc => rw [hc] at h; exact h.elim
    | inr hc => rw [hc] at h; exact h.elim
  | runTask c task hc | waitAll c hc | enter c task retry hc | get c task retry pc hc | acquire c task hc
  | hand c task t hc | wake c t hc | refuse c task t hc =>
    rw [hc] at h
    exact h.elim
  | finish | complete => exact h
  | done t pc hw hl =>
    cases pc with
    | remove =>
      simp only [doneStep]
      split
      all_goals exact h
    | _ => exact h

end Pool

namespace ThreadPool

open Pool

variable {Task : Type} {max_size min_size : Nat} {before during : List (Event Unit Task)} {s s' : State Unit Task}

theorem run_waits (hok : Along (step max_size min_size) Patient (init max_size min_size) before)
    (h : run (step max_size min_size) (init max_size min_size) before = some s) : Sound s ∧ Waits s := by
  refine along_invariant (P := fun s => Sound s ∧ Waits s) ?_ ⟨sound_init, waits_init⟩ hok h
  intro s a s' hs hok hstep
  exact ⟨hs.1.step hstep, hs.2.step hs.1 rfl hok hstep⟩

/-- The first `waitAll` takes the permit before the test after its release, which adds another one. -/
def doubled : List (Event Unit Nat) :=
  .runTask () 1 :: List.replicate 8 (.client ()) ++ .waitAll () :: List.replicate 2 (.client ()) ++
    .finish 1 :: List.replicate 8 (.worker 1) ++ .client () :: List.replicate 5 (.worker 1) ++ .client () ::
    .runTask () 2 :: List.replicate 8 (.client ())

end ThreadPool

end Srl
