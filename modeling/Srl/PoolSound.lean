import Mathlib.Data.List.Perm.Basic
import Mathlib.Data.List.Range
import Srl.PoolSteps

namespace Srl.Pool

variable {Client Task : Type} {cfg : Config} {s s' : State Client Task} {c c' : Client} {t : Nat}
  {task : Task} {retry : Bool}

/-- The thread that the lock holder has in neither list. -/
def Lock.transit : Lock Client → List Nat
  | .getThread _ (.reach t) | .getThread _ (.first t) | .getThread _ (.add t) => [t]
  | .task_completed t .add => [t]
  | _ => []

/-- The thread that a client got and has not yet woken. -/
def ClientPc.holds : ClientPc Task → Option Nat
  | .hand _ t | .wake t => some t
  | _ => none

/-- Every created thread is in one place, and it runs only in the busy list. -/
structure Sound (s : State Client Task) : Prop where
  placed : (s.available ++ s.busy ++ s.lock.transit).Perm (List.range s.size)
  inside : ∀ c task retry, s.client c = .inside task retry → ∃ pc, s.lock = .getThread c pc
  getting : ∀ c pc, s.lock = .getThread c pc → ∃ task retry, s.client c = .inside task retry
  completing : ∀ t, s.worker t = .completing ↔ ∃ pc, s.lock = .task_completed t pc
  running : ∀ t, s.worker t = .running ∨ s.worker t = .finishing → t ∈ s.busy
  alive : ∀ t, s.worker t ≠ .dead
  removing : ∀ t, s.lock = .task_completed t .detach ∨ s.lock = .task_completed t .remove → t ∈ s.busy
  found : ∀ t, s.lock ≠ .task_completed t .throw
  held : ∀ c t, (s.client c).holds = some t → t ∈ s.busy ∧ s.worker t = .paused
  apart : ∀ c c' t, (s.client c).holds = some t → (s.client c').holds = some t → c = c'
  fresh : ∀ c t, s.lock = .getThread c (.unlock t) →
    t ∈ s.busy ∧ s.worker t = .paused ∧ ∀ c', (s.client c').holds ≠ some t

theorem Sound.nodup (h : Sound s) : (s.available ++ s.busy ++ s.lock.transit).Nodup :=
  h.placed.nodup_iff.mpr List.nodup_range

theorem Sound.not_busy_of_transit (h : Sound s) (ht : t ∈ s.lock.transit) : t ∉ s.busy := by
  have hd := (List.nodup_append.mp h.nodup).2.2
  intro hb
  exact hd t (List.mem_append_right _ hb) t ht rfl

/-- A thread that the holder of `_getThread` has in hand is at rest and nobody else's. -/
theorem Sound.transit_free (h : Sound s) (hl : ∀ t pc, s.lock ≠ .task_completed t pc)
    (ht : t ∈ s.lock.transit) : s.worker t = .paused ∧ ∀ c', (s.client c').holds ≠ some t := by
  have hb := h.not_busy_of_transit ht
  refine ⟨?_, fun c' hc' => hb (h.held c' t hc').1⟩
  cases hw : s.worker t with
  | paused => rfl
  | running => exact absurd (h.running t (Or.inl hw)) hb
  | finishing => exact absurd (h.running t (Or.inr hw)) hb
  | completing =>
    obtain ⟨pc, hpc⟩ := (h.completing t).mp hw
    exact absurd hpc (hl t pc)
  | dead => exact absurd hw (h.alive t)

theorem filled_spec (n : Nat) : (filled n : State Client Task).size = n ∧
    (filled n : State Client Task).available = List.range n ∧
    (filled n : State Client Task) =
      ⟨List.range n, [], n, 1, 1, .free, fun _ => .idle, fun _ => .paused, fun _ => none, fun _ => [],
        fun _ => []⟩ := by
  induction n with
  | zero => exact ⟨rfl, rfl, rfl⟩
  | succ n ih =>
    obtain ⟨hs, ha, heq⟩ := ih
    simp only [filled]
    rw [heq]
    simp [List.range_succ]

theorem init_eq : (init cfg : State Client Task) =
    ⟨List.range cfg.min_size, [], cfg.min_size, 1, 1, .free, fun _ => .idle, fun _ => .paused, fun _ => none,
      fun _ => [], fun _ => []⟩ := (filled_spec cfg.min_size).2.2

theorem sound_init : Sound (init cfg : State Client Task) := by
  rw [init_eq]
  refine ⟨by simp [Lock.transit], ?_, ?_, ?_, ?_, ?_, ?_, ?_, ?_, ?_, ?_⟩ <;> simp [ClientPc.holds]

section Steps

variable [DecidableEq Client]

omit [DecidableEq Client] in
/-- A step under the lock that moves no thread, taken by the client that holds it. -/
theorem Sound.get {pc pc' : GetPc} {b w : Nat} (h : Sound s) (hl : s.lock = .getThread c pc)
    (ht : (Lock.getThread c pc').transit = s.lock.transit) (hpc : ∀ t, pc' ≠ .unlock t) :
    Sound { s with blocker := b, waiter := w, lock := .getThread c pc' } := by
  obtain ⟨placed, inside, getting, completing, running, alive, removing, found, held, apart, fresh⟩ := h
  rw [← ht] at placed
  refine ⟨placed, ?_, ?_, ?_, running, alive, ?_, ?_, held, apart, ?_⟩
  · intro c' task retry hc'
    obtain ⟨pc₁, hpc₁⟩ := inside c' task retry hc'
    grind
  all_goals grind

omit [DecidableEq Client] in
/-- A step under the lock that moves no thread, taken by the pool thread that holds it. -/
theorem Sound.done {pc pc' : DonePc} {b w : Nat} (h : Sound s) (hl : s.lock = .task_completed t pc)
    (ht : (.task_completed t pc' : Lock Client).transit = s.lock.transit)
    (hpc : pc' ≠ .detach ∧ pc' ≠ .remove ∧ pc' ≠ .throw) :
    Sound { s with blocker := b, waiter := w, lock := .task_completed t pc' } := by
  obtain ⟨placed, inside, getting, completing, running, alive, removing, found, held, apart, fresh⟩ := h
  rw [← ht] at placed
  refine ⟨placed, ?_, ?_, ?_, running, alive, ?_, ?_, held, apart, ?_⟩
  all_goals grind

omit [DecidableEq Client] in
theorem Sound.doneStep {pc : DonePc} (h : Sound s) (hw : s.worker t = .completing)
    (hl : s.lock = .task_completed t pc) :
    Sound (doneStep cfg s t pc) := by
  cases pc with
  | check =>
    simp only [Pool.doneStep]
    split
    · exact h.done hl (by simp [hl, Lock.transit]) (by simp)
    · exact h.done hl (by simp [hl, Lock.transit]) (by simp)
  | blockerTest | waiterTest  | busyTest =>
    simp only [Pool.doneStep]
    split
    · exact h.done hl (by simp [hl, Lock.transit]) (by simp)
    · exact h.done hl (by simp [hl, Lock.transit]) (by simp)
  | blockerBack | blockerRelease | waiterBack | waiterRelease =>
    exact h.done hl (by simp [hl, Lock.transit]) (by simp)
  | detach =>
    obtain ⟨placed, inside, getting, completing, running, alive, removing, found, held, apart, fresh⟩ := h
    rw [hl] at placed
    refine ⟨placed, ?_, ?_, ?_, running, alive, ?_, ?_, held, apart, ?_⟩
    all_goals simp only [Pool.doneStep]
    all_goals grind
  | remove =>
    obtain ⟨placed, inside, getting, completing, running, alive, removing, found, held, apart, fresh⟩ := h
    have hb : t ∈ s.busy := removing t (Or.inr hl)
    simp only [Pool.doneStep, if_pos hb]
    rw [hl] at placed
    refine ⟨?_, ?_, ?_, ?_, ?_, alive, ?_, ?_, ?_, apart, ?_⟩
    · simp only [Lock.transit, List.append_nil] at placed ⊢
      grind
    rotate_left 3
    · intro u hu
      have hut : u ≠ t := by grind
      exact (List.mem_erase_of_ne hut).mpr (running u hu)
    rotate_left 2
    · intro c' u hc'
      have hut : u ≠ t := by grind
      exact ⟨(List.mem_erase_of_ne hut).mpr (held c' u hc').1, (held c' u hc').2⟩
    all_goals grind
  | add =>
    obtain ⟨placed, inside, getting, completing, running, alive, removing, found, held, apart, fresh⟩ := h
    rw [hl] at placed
    refine ⟨?_, ?_, ?_, ?_, running, alive, ?_, ?_, held, apart, ?_⟩
    · simp only [Pool.doneStep, Lock.transit] at placed ⊢
      grind
    all_goals simp only [Pool.doneStep]
    all_goals grind
  | unlock | throw =>
    obtain ⟨placed, inside, getting, completing, running, alive, removing, found, held, apart, fresh⟩ := h
    rw [hl] at placed
    refine ⟨placed, ?_, ?_, ?_, ?_, ?_, ?_, ?_, ?_, apart, ?_⟩
    all_goals simp only [Pool.doneStep, State.become]
    all_goals grind [Function.update_apply]

theorem Sound.getStep {pc : GetPc} (h : Sound s) (hc : s.client c = .inside task retry)
    (hl : s.lock = .getThread c pc) :
    Sound (getStep cfg s c task retry pc) := by
  have hfree := fun t => @Sound.transit_free _ _ s t h (by rw [hl]; simp)
  cases pc with
  | pick =>
    simp only [Pool.getStep]
    split
    next t ht =>
      obtain ⟨front, ha⟩ := List.getLast?_eq_some_iff.mp ht
      obtain ⟨placed, inside, getting, completing, running, alive, removing, found, held, apart, fresh⟩ := h
      rw [hl] at placed
      refine ⟨?_, ?_, ?_, ?_, running, alive, ?_, ?_, held, apart, ?_⟩
      · simp only [ha, Lock.transit, List.dropLast_concat] at placed ⊢
        grind
      all_goals grind
    next hnone =>
      split
      next =>
        obtain ⟨placed, inside, getting, completing, running, alive, removing, found, held, apart, fresh⟩ := h
        rw [hl] at placed
        refine ⟨?_, ?_, ?_, ?_, running, alive, ?_, ?_, held, apart, ?_⟩
        · simp only [Lock.transit, List.range_succ, List.append_nil] at placed ⊢
          exact placed.append_right _
        all_goals grind
      next => exact h.get hl (by simp [hl, Lock.transit]) (by simp)
  | reach t =>
    cases hw : cfg.waits with
    | true =>
      simp only [Pool.getStep, hw, if_true]
      exact h.get hl (by simp [hl, Lock.transit]) (by simp)
    | false =>
      simp only [Pool.getStep, hw, Bool.false_eq_true, if_false]
      exact h.get hl (by simp [hl, Lock.transit]) (by simp)
  | first t => exact h.get hl (by simp [hl, Lock.transit]) (by simp)
  | full =>
    obtain ⟨placed, inside, getting, completing, running, alive, removing, found, held, apart, fresh⟩ := h
    rw [hl] at placed
    refine ⟨placed, ?_, ?_, ?_, running, alive, ?_, ?_, ?_, ?_, ?_⟩
    all_goals simp only [Pool.getStep, State.goto]
    all_goals grind [Function.update_apply, ClientPc.holds]
  | add t =>
    have ht := hfree t (by simp [hl, Lock.transit])
    obtain ⟨placed, inside, getting, completing, running, alive, removing, found, held, apart, fresh⟩ := h
    rw [hl] at placed
    refine ⟨?_, ?_, ?_, ?_, ?_, alive, ?_, ?_, ?_, apart, ?_⟩
    · simp only [Pool.getStep, Lock.transit, List.append_nil] at placed ⊢
      rwa [← List.append_assoc]
    all_goals simp only [Pool.getStep]
    all_goals grind
  | unlock t =>
    obtain ⟨placed, inside, getting, completing, running, alive, removing, found, held, apart, fresh⟩ := h
    rw [hl] at placed
    refine ⟨placed, ?_, ?_, ?_, running, alive, ?_, ?_, ?_, ?_, ?_⟩
    all_goals simp only [Pool.getStep, State.goto]
    all_goals grind [ClientPc.holds, Function.update_apply]

/-- A client outside the lock moves on; what it holds it held before. -/
theorem Sound.goto {pc : ClientPc Task} {b w : Nat} {given : Nat → Option Task} {submitted : Client → List Task}
    {handed : Client → List (Task × Nat)} (h : Sound s) (hc : ∀ task retry, s.client c ≠ .inside task retry)
    (hpc : ∀ task retry, pc ≠ .inside task retry) (hh : ∀ t, pc.holds = some t → (s.client c).holds = some t) :
    Sound (State.goto { s with
      blocker := b, waiter := w, task := given, submitted := submitted, handed := handed } c pc) := by
  have hholds : ∀ c' t, (Function.update s.client c pc c').holds = some t → (s.client c').holds = some t := by
    intro c' t hc'
    by_cases he : c' = c
    · subst he
      rw [Function.update_self] at hc'
      exact hh t hc'
    · rwa [Function.update_of_ne he] at hc'
  obtain ⟨placed, inside, getting, completing, running, alive, removing, found, held, apart, fresh⟩ := h
  refine ⟨placed, ?_, ?_, completing, running, alive, removing, found, fun c' t hc' => held c' t (hholds c' t hc'),
    fun c₁ c₂ t h₁ h₂ => apart c₁ c₂ t (hholds c₁ t h₁) (hholds c₂ t h₂), fun c' t hl => ?_⟩
  · intro c' task retry hc'
    by_cases he : c' = c
    · subst he
      exact absurd ((Function.update_self _ _ _).symm.trans hc') (hpc task retry)
    · exact inside c' task retry ((Function.update_of_ne he _ _).symm.trans hc')
  · intro c' pc' hl
    obtain ⟨task, retry, hi⟩ := getting c' pc' hl
    have he : c' ≠ c := by
      intro he
      exact hc task retry (he ▸ hi)
    exact ⟨task, retry, (Function.update_of_ne he _ _).trans hi⟩
  · obtain ⟨hb, hw, hn⟩ := fresh c' t hl
    exact ⟨hb, hw, fun c₁ h₁ => hn c₁ (hholds c₁ t h₁)⟩

theorem Sound.step {a : Event Client Task} (h : Sound s) (hs : step cfg s a = some s') : Sound s' := by
  cases step_cases hs with
  | runTask c task hc => exact h.goto (by simp [hc]) (by simp) (by simp [ClientPc.holds])
  | waitAll c hc => exact h.goto (by simp [hc]) (by simp) (by simp [ClientPc.holds])
  | enter c task retry hc hl =>
    obtain ⟨placed, inside, getting, completing, running, alive, removing, found, held, apart, fresh⟩ := h
    rw [hl] at placed
    refine ⟨placed, ?_, ?_, ?_, running, alive, ?_, ?_, ?_, ?_, ?_⟩
    · intro c' task' retry' hc'
      by_cases he : c' = c
      · exact ⟨.pick, by rw [he]; rfl⟩
      · obtain ⟨pc, hpc⟩ := inside c' task' retry' ((Function.update_of_ne he _ _).symm.trans hc')
        rw [hl] at hpc
        cases hpc
    · intro c' pc hpc
      cases hpc
      exact ⟨task, retry, Function.update_self _ _ _⟩
    all_goals simp only [State.goto]
    all_goals grind [ClientPc.holds, Function.update_apply]
  | get c task retry pc hc hl => exact h.getStep hc hl
  | acquire c task hc => exact h.goto (by simp [hc]) (by simp) (by simp [ClientPc.holds])
  | hand c task t hc => exact h.goto (by simp [hc]) (by simp) (by simp [hc, ClientPc.holds])
  | wake c t hc =>
    have hheld := h.held c t (by simp [hc, ClientPc.holds])
    rw [if_pos hheld.2]
    obtain ⟨placed, inside, getting, completing, running, alive, removing, found, held, apart, fresh⟩ := h
    refine ⟨placed, ?_, ?_, ?_, ?_, ?_, removing, found, ?_, ?_, ?_⟩
    all_goals simp only [State.goto, State.become]
    all_goals grind [ClientPc.holds, Function.update_apply]
  | waitDone c hc | waitBusy c hc | waitPass c hc | waitFail c hc | waitAcquire c hc =>
    exact h.goto (by simp [hc]) (by simp) (by simp [ClientPc.holds])
  | waitReturn c hc =>
    have hc' : ∀ task retry, s.client c ≠ .inside task retry := by
      cases hc with
      | inl hc => simp [hc]
      | inr hc => simp [hc]
    exact h.goto hc' (by simp) (by simp [ClientPc.holds])
  | refuse c task t hc => exact h.goto (by simp [hc]) (by simp) (by simp [ClientPc.holds])
  | finish t hw =>
    obtain ⟨placed, inside, getting, completing, running, alive, removing, found, held, apart, fresh⟩ := h
    refine ⟨placed, inside, getting, ?_, ?_, ?_, removing, found, ?_, apart, ?_⟩
    all_goals simp only [State.become]
    all_goals grind [Function.update_apply]
  | complete t hw hl =>
    obtain ⟨placed, inside, getting, completing, running, alive, removing, found, held, apart, fresh⟩ := h
    rw [hl] at placed
    refine ⟨placed, ?_, ?_, ?_, ?_, ?_, ?_, ?_, ?_, apart, ?_⟩
    all_goals simp only [State.become]
    all_goals grind [Function.update_apply]
  | done t pc hw hl => exact h.doneStep hw hl

theorem sound_run {as : List (Event Client Task)}
    (h : Transition.run (step cfg) (init cfg) as = some s) : Sound s :=
  Transition.run_invariant (fun _ _ _ hs h => hs.step h) sound_init h

end Steps

end Srl.Pool
