import Srl.PoolBlocker

namespace Srl

open Transition

namespace Pool

variable {Task : Type} {cfg : Config} {s s' : State Unit Task} {t : Nat} {task : Task} {retry : Bool}

/-- `task_completed` put back the only free thread and is still to see to the permit. -/
def Lock.Releasing {Client : Type} (free : Nat) : Lock Client → Prop
  | .task_completed _ .check => free = 1
  | .task_completed _ .blockerTest | .task_completed _ .blockerBack | .task_completed _ .blockerRelease => True
  | _ => False

/-- A client that waits alone is not left behind: there is no free thread, or there is a permit for it. -/
def Served (s : State Unit Task) : Prop :=
  ∀ task, s.client () = .block task → s.available ≠ [] → ¬ s.lock.Releasing s.available.length → s.blocker = 1

theorem served_init : Served (init cfg : State Unit Task) := by
  rw [init_eq]
  simp [Served]

theorem Served.getStep {pc : GetPc} (ht : Tight cfg s) (hc : s.client () = .inside task retry)
    (hl : s.lock = .getThread () pc) : Served (getStep cfg s () task retry pc) := by
  intro task' hc' hne _
  cases pc with
  | full => exact absurd (ht.full () hl).2 hne
  | unlock t => simp [Pool.getStep, State.goto] at hc'
  | pick =>
    exfalso
    revert hc'
    simp only [Pool.getStep]
    split
    · simp [hc]
    · split
      · simp [hc]
      · simp [hc]
  | reach t | first t | add t => simp [Pool.getStep, hc] at hc'

theorem Served.doneStep {pc : DonePc} (h : Served s) (ht : Tight cfg s) (hl : s.lock = .task_completed t pc) :
    Served (doneStep cfg s t pc) := by
  intro task hc hne hr
  have hback := ht.back t pc hl
  cases pc with
  | blockerBack | blockerRelease =>
    simp only [Pool.doneStep, hback (by simp)]
    rfl
  | check =>
    have hfull := ht.refused () (by rw [show s.client () = .block task from hc]; trivial)
    simp only [Pool.doneStep, hfull, and_true] at hc hne hr ⊢
    apply h task hc hne
    rw [hl]
    intro hone
    rw [if_pos (show s.available.length = 1 from hone)] at hr
    exact hr trivial
  | add =>
    simp only [Pool.doneStep, Lock.Releasing, List.length_append, List.length_singleton] at hr hc
    exact h task hc (by intro hnil; simp [hnil] at hr) (by simp [hl, Lock.Releasing])
  | remove =>
    revert hc hne hr
    simp only [Pool.doneStep]
    split
    all_goals
      intro hc hne hr
      exact h task hc hne (by simp [hl, Lock.Releasing])
  | blockerTest =>
    exfalso
    apply hr
    simp only [Pool.doneStep]
    split
    all_goals trivial
  | _ => exact h task hc hne (by simp [hl, Lock.Releasing])

theorem Served.step {a : Event Unit Task} (h : Served s) (ht : Tight cfg s)
    (hs : step cfg s a = some s') : Served s' := by
  cases step_cases hs with
  | get c task retry pc hc hl => exact Served.getStep ht hc hl
  | done t pc hw hl => exact h.doneStep ht hl
  | complete t hw hl =>
    intro task hc hne _
    exact h task hc hne (by simp [hl, Lock.Releasing])
  | finish t hw => exact h
  | _ =>
    intro task hc
    simp [State.goto] at hc

theorem orderly_alone {a : Event Unit Task} (h : Sound s) : Orderly s a := by
  cases a with
  | client c =>
    refine ⟨fun _ _ c' hne => absurd rfl hne, ?_⟩
    intro task hc _ c' t hl
    obtain ⟨task', retry, hi⟩ := h.getting c' _ hl
    rw [hc] at hi
    cases hi
  | _ => trivial

/-- The created threads are shared out between the two lists, and they are not too many. -/
structure Shared (max_size : Nat) (s : State Unit Task) : Prop where
  disjoint : s.available.Disjoint s.busy
  available : s.available.Nodup
  busy : s.busy.Nodup
  created : ∀ t, t ∈ s.available ∨ t ∈ s.busy ↔ t < s.size
  size : s.available.length + s.busy.length = s.size
  size_le : s.size ≤ max_size

theorem Sound.shared (h : Sound s) (ht : Tight cfg s) (hl : s.lock = .free) : Shared cfg.max_size s := by
  have hperm := h.placed
  have hnodup := h.nodup
  rw [hl] at hperm hnodup
  simp only [Lock.transit, List.append_nil] at hperm hnodup
  obtain ⟨ha, hb, hd⟩ := List.nodup_append.mp hnodup
  refine ⟨fun t hta htb => hd t hta t htb rfl, ha, hb, ?_, ?_, ht.size_le⟩
  · intro t
    rw [← List.mem_append, hperm.mem_iff, List.mem_range]
  · rw [← List.length_append, hperm.length_eq, List.length_range]

end Pool

namespace HttpServer

open Pool

def STARTING_THREADS : Nat := 2

/-- The pool of requests; its one client is the loop of `run`, which takes a request for each connection. -/
def cfg (max_cons : Nat) : Config := ⟨max_cons, STARTING_THREADS, false⟩

def step (max_cons : Nat) : State Unit Unit → Event Unit Unit → Option (State Unit Unit) := Pool.step (cfg max_cons)

def init (max_cons : Nat) : State Unit Unit := Pool.init (cfg max_cons)

variable {max_cons : Nat} {as : List (Event Unit Unit)} {s : State Unit Unit}

theorem run_spec (hmax : 2 ≤ max_cons) (h : run (step max_cons) (init max_cons) as = some s) :
    Sound s ∧ Tight (cfg max_cons) s ∧ Fetches s ∧ Served s := by
  refine run_invariant (P := fun s => Sound s ∧ Tight (cfg max_cons) s ∧ Fetches s ∧ Served s) ?_
    ⟨sound_init, tight_init (Nat.le_of_succ_le hmax) hmax, fetches_init, served_init⟩ h
  intro s a s' hs hstep
  obtain ⟨hsound, htight, hfetches, hserved⟩ := hs
  exact ⟨hsound.step hstep, htight.step hstep, hfetches.step htight (orderly_alone hsound) hstep,
    hserved.step htight hstep⟩

/-- No request is lost or served twice, and the acceptor never waits while one is free. -/
theorem pool_invariant (hmax : 2 ≤ max_cons) (h : run (step max_cons) (init max_cons) as = some s) :
    (s.lock = .free → Shared max_cons s) ∧ s.client () ≠ .null () ∧
      (s.lock = .free → s.client () = .block () → s.blocker = 0 → s.available = []) := by
  obtain ⟨hsound, htight, hfetches, hserved⟩ := run_spec hmax h
  refine ⟨hsound.shared htight, hfetches.never () (), ?_⟩
  intro hl hc hb
  apply Classical.byContradiction
  intro hne
  have hone := hserved () hc hne (by simp [hl, Lock.Releasing])
  omega

theorem pool_invariant_accepted :
    ∃ s, run (step 2) (init 2) (.runTask () () :: List.replicate 7 (.client ())) = some s ∧
      Shared 2 s ∧ s.client () ≠ .null () := by
  have hfree : (run (step 2) (init 2) (.runTask () () :: List.replicate 7 (.client ()))).map State.lock =
    some .free := rfl
  obtain ⟨s, hs, hl⟩ := Option.map_eq_some_iff.mp hfree
  have h := pool_invariant (Nat.le_refl 2) hs
  exact ⟨s, hs, h.1 hl, h.2.1⟩

end HttpServer

end Srl
