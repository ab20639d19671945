import Srl.PoolBlocker

namespace Srl

open Transition

namespace Pool

variable {Client Task : Type} {cfg : Config} {s s' : State Client Task} {c c' : Client} {t : Nat}
  {task : Task} {retry : Bool}

/-- The task of a call of `runTask` that no thread has yet. -/
def ClientPc.pending : ClientPc Task → List Task
  | .enter task _ | .inside task _ | .block task | .null task | .hand task _ => [task]
  | _ => []

/-- A thread at rest has no task, and each client's tasks went to created threads in their order. -/
structure Handed (s : State Client Task) : Prop where
  rest : ∀ t, s.worker t = .paused → (∀ c, s.client c ≠ .wake t) → s.task t = none
  done : ∀ t pc, s.lock = .task_completed t pc → pc ≠ .detach → s.task t = none
  history : ∀ c, s.submitted c = (s.handed c).map Prod.fst ++ (s.client c).pending
  created : ∀ c, ∀ p ∈ s.handed c, p.2 < s.size

theorem handed_init : Handed (init cfg : State Client Task) := by
  rw [init_eq]
  exact ⟨by simp, by simp, by simp [ClientPc.pending], by simp⟩

theorem Sound.lt_size (h : Sound s) (ht : t ∈ s.busy) : t < s.size :=
  List.mem_range.mp (h.placed.mem_iff.mp (List.mem_append_left _ (List.mem_append_right _ ht)))

section Steps

variable [DecidableEq Client]

/-- A client that neither calls, nor hands over, nor wakes. -/
theorem Handed.goto {pc : ClientPc Task} {b w : Nat} (h : Handed s) (hpc : pc.pending = (s.client c).pending)
    (hw : ∀ t, s.client c ≠ .wake t) : Handed (State.goto { s with blocker := b, waiter := w } c pc) := by
  obtain ⟨rest, done, history, created⟩ := h
  refine ⟨?_, done, ?_, created⟩
  · intro t ht hn
    apply rest t ht
    intro c' hc'
    have hne : c' ≠ c := by
      intro he
      exact hw t (he ▸ hc')
    apply hn c'
    rw [State.goto_client, if_neg hne]
    exact hc'
  · intro c'
    rw [State.goto_client]
    split
    next he => rw [hpc, he]; exact history c
    next => exact history c'

theorem Handed.getStep {pc : GetPc} (h : Handed s) (hc : s.client c = .inside task retry)
    (hl : s.lock = .getThread c pc) : Handed (getStep cfg s c task retry pc) := by
  obtain ⟨rest, done, history, created⟩ := h
  cases pc with
  | pick =>
    simp only [Pool.getStep]
    split
    next => exact ⟨rest, by simp, history, created⟩
    next =>
      split
      next => exact ⟨rest, by simp, history, fun c p hp => Nat.lt_succ_of_lt (created c p hp)⟩
      next => exact ⟨rest, by simp, history, created⟩
  | reach t | first t | add t => exact ⟨rest, by simp [Pool.getStep], history, created⟩
  | full =>
    have hfree : Handed { s with lock := .free } := ⟨rest, by simp, history, created⟩
    cases retry with
    | true => exact hfree.goto (by simp [hc, ClientPc.pending]) (by simp [hc])
    | false => exact hfree.goto (by simp [hc, ClientPc.pending]) (by simp [hc])
  | unlock t =>
    have hfree : Handed { s with lock := .free } := ⟨rest, by simp, history, created⟩
    exact hfree.goto (by simp [hc, ClientPc.pending]) (by simp [hc])

omit [DecidableEq Client] in
theorem Handed.doneStep {pc : DonePc} (h : Handed s) (hwaits : cfg.waits = true)
    (hl : s.lock = .task_completed t pc) : Handed (doneStep cfg s t pc) := by
  obtain ⟨rest, done, history, created⟩ := h
  have hdone := done t pc hl
  cases pc with
  | detach =>
    simp only [Pool.doneStep, hwaits, if_true]
    constructor
    all_goals grind [Function.update_apply]
  | remove =>
    simp only [Pool.doneStep]
    split
    all_goals
      constructor
      all_goals grind
  | unlock | throw =>
    simp only [Pool.doneStep, State.become]
    constructor
    all_goals grind [Function.update_apply]
  | _ =>
    simp only [Pool.doneStep]
    constructor
    all_goals grind

theorem Handed.step {a : Event Client Task} (h : Handed s) (hs : Sound s) (hwaits : cfg.waits = true)
    (hstep : step cfg s a = some s') : Handed s' := by
  cases step_cases hstep with
  | runTask c task hc =>
    obtain ⟨rest, done, history, created⟩ := h
    refine ⟨?_, done, ?_, created⟩
    · intro t ht hn
      apply rest t ht
      intro c' hc'
      apply hn c'
      grind
    · intro c'
      have hhist := history c'
      simp only [State.goto, Function.update_apply]
      split
      next he =>
        subst he
        rw [hhist, hc]
        simp [ClientPc.pending]
      next => exact hhist
  | waitAll c hc | waitDone c hc | waitBusy c hc | waitPass c hc | waitFail c hc | waitAcquire c hc =>
    exact h.goto (by simp [hc, ClientPc.pending]) (by simp [hc])
  | acquire c task hc => exact h.goto (by simp [hc, ClientPc.pending]) (by simp [hc])
  | waitReturn c hc =>
    cases hc with
    | inl hc => exact h.goto (by simp [hc, ClientPc.pending]) (by simp [hc])
    | inr hc => exact h.goto (by simp [hc, ClientPc.pending]) (by simp [hc])
  | enter c task retry hc hl =>
    have hlock : Handed { s with lock := .getThread c .pick } := ⟨h.rest, by simp, h.history, h.created⟩
    exact hlock.goto (by simp [hc, ClientPc.pending]) (by simp [hc])
  | get c task retry pc hc hl => exact h.getStep hc hl
  | hand c task t hc =>
    have hheld := hs.held c t (by simp [hc, ClientPc.holds])
    have hlt := hs.lt_size hheld.1
    obtain ⟨rest, done, history, created⟩ := h
    constructor
    case rest =>
      intro u hu hn
      have hne : u ≠ t := by
        intro he
        exact hn c (by rw [State.goto_client, if_pos rfl, he])
      simp only [State.goto, Function.update_of_ne hne]
      apply rest u hu
      intro c' hc'
      apply hn c'
      grind
    case done =>
      intro u pc hl hpc
      have hne : u ≠ t := by
        intro he
        have hw := (hs.completing u).mpr ⟨pc, hl⟩
        rw [he, hheld.2] at hw
        cases hw
      simp only [State.goto, Function.update_of_ne hne]
      exact done u pc hl hpc
    case history =>
      intro c'
      have hhist := history c'
      simp only [State.goto, Function.update_apply]
      split
      next he =>
        subst he
        rw [hhist, hc]
        simp [ClientPc.pending]
      next => exact hhist
    case created =>
      intro c' p hp
      simp only [State.goto, Function.update_apply] at hp ⊢
      split at hp
      next => grind
      next => exact created c' p hp
  | wake c t hc =>
    have hheld := hs.held c t (by simp [hc, ClientPc.holds])
    rw [if_pos hheld.2]
    obtain ⟨rest, done, history, created⟩ := h
    refine ⟨?_, done, ?_, created⟩
    · intro u hu hn
      simp only [State.goto, State.become, Function.update_apply] at hu hn ⊢
      grind
    · intro c'
      have hhist := history c'
      simp only [State.goto, State.become, Function.update_apply]
      grind [ClientPc.pending]
  | refuse c task t hc hw => rw [hwaits] at hw; cases hw
  | finish t hw =>
    obtain ⟨rest, done, history, created⟩ := h
    rw [if_pos hwaits]
    refine ⟨?_, done, history, created⟩
    intro u hu
    simp only [State.become, Function.update_apply] at hu ⊢
    grind
  | complete t hw hl =>
    obtain ⟨rest, done, history, created⟩ := h
    refine ⟨?_, by simp [State.become], history, created⟩
    intro u hu
    simp only [State.become, Function.update_apply] at hu ⊢
    grind
  | done t pc hw hl => exact h.doneStep hwaits hl

end Steps

end Pool

namespace ThreadPool

open Pool

variable {Client Task : Type} [DecidableEq Client] {max_size min_size : Nat}
  {as : List (Event Client Task)} {s : State Client Task}

def cfg (max_size min_size : Nat) : Config := ⟨max_size, min_size, true⟩

def step (max_size min_size : Nat) : State Client Task → Event Client Task → Option (State Client Task) :=
  Pool.step (cfg max_size min_size)

def init (max_size min_size : Nat) : State Client Task := Pool.init (cfg max_size min_size)

/-- A client has a thread after its second look, and every task goes to one thread that nobody else has. -/
structure HandsOver (s : State Client Task) : Prop where
  never : ∀ c task, s.client c ≠ .null task
  submitted : ∀ c, s.submitted c = (s.handed c).map Prod.fst ++ (s.client c).pending
  created : ∀ c, ∀ p ∈ s.handed c, p.2 < s.size
  free : ∀ c task t, s.client c = .hand task t → s.worker t = .paused ∧ s.task t = none ∧
    ∀ c', (s.client c').holds = some t → c' = c

theorem run_spec (hmax : 1 ≤ max_size) (hmin : min_size ≤ max_size)
    (hok : Along (step max_size min_size) Orderly (init max_size min_size) as)
    (h : run (step max_size min_size) (init max_size min_size) as = some s) :
    Sound s ∧ Tight (cfg max_size min_size) s ∧ Fetches s ∧ Handed s := by
  refine along_invariant (P := fun s => Sound s ∧ Tight (cfg max_size min_size) s ∧ Fetches s ∧ Handed s) ?_
    ⟨sound_init, tight_init hmax hmin, fetches_init, handed_init⟩ hok h
  intro s a s' hs hok hstep
  obtain ⟨hsound, htight, hfetches, hhanded⟩ := hs
  exact ⟨hsound.step hstep, htight.step hstep, hfetches.step htight hok hstep, hhanded.step hsound rfl hstep⟩

/-- The thread that came back for the waiting client goes to the other one, which calls before it looks again. -/
def stolen : List (Event Bool Nat) :=
  .runTask true 1 :: List.replicate 8 (.client true) ++ .runTask false 2 :: List.replicate 3 (.client false) ++
    .finish 0 :: List.replicate 13 (.worker 0) ++ .client false :: .runTask true 3 ::
    List.replicate 6 (.client true) ++ List.replicate 3 (.client false)

end ThreadPool

end Srl
