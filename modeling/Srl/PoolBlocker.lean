import Srl.PoolSound
namespace Srl.Pool

variable {Client Task : Type} {cfg : Config} {s s' : State Client Task} {c c' : Client} {t : Nat}
  {task : Task} {retry : Bool}

/-- A client that found the pool full: it waits for a permit, or looks a second time. -/
def ClientPc.Refused : ClientPc Task → Prop
  | .block _ | .enter _ true | .inside _ true => True
  | _ => False

/-- `_blocker` has one permit at most, and none while a pool of full size has no free thread. -/
structure Tight (cfg : Config) (s : State Client Task) : Prop where
  size_le : s.size ≤ cfg.max_size
  blocker_le : s.blocker ≤ 1
  empty : s.size = cfg.max_size → s.available = [] → (∀ c t, s.lock ≠ .getThread c (.reach t)) → s.blocker = 0
  full : ∀ c, s.lock = .getThread c .full → s.size = cfg.max_size ∧ s.available = []
  refused : ∀ c, (s.client c).Refused → s.size = cfg.max_size
  test : ∀ t pc, s.lock = .task_completed t pc → pc = .blockerTest ∨ pc = .blockerBack ∨ pc = .blockerRelease →
    s.available.length = 1
  back : ∀ t pc, s.lock = .task_completed t pc → pc = .blockerBack ∨ pc = .blockerRelease → s.blocker = 0

theorem tight_init (hmax : 1 ≤ cfg.max_size) (hmin : cfg.min_size ≤ cfg.max_size) :
    Tight cfg (init cfg : State Client Task) := by
  rw [init_eq]
  refine ⟨hmin, Nat.le_refl 1, ?_, by simp, by simp [ClientPc.Refused], by simp, by simp⟩
  intro hs ha
  simp only [List.range_eq_nil] at ha hs
  omega

section Steps

variable [DecidableEq Client]

theorem Tight.getStep {pc : GetPc} (h : Tight cfg s)
    (hl : s.lock = .getThread c pc) : Tight cfg (getStep cfg s c task retry pc) := by
  obtain ⟨size_le, blocker_le, empty, full, refused, test, back⟩ := h
  cases pc with
  | pick =>
    simp only [Pool.getStep]
    split
    next t ht =>
      constructor
      all_goals grind
    next hnone =>
      simp only [List.getLast?_eq_none_iff] at hnone
      split
      next =>
        constructor
        case refused =>
          intro c hc
          have := refused c hc
          grind
        all_goals grind
      next =>
        constructor
        all_goals grind
  | full =>
    simp only [Pool.getStep, State.goto]
    constructor
    case refused =>
      exact fun _ _ => (full c hl).1
    all_goals grind
  | reach t =>
    simp only [Pool.getStep]
    constructor
    all_goals grind
  | first t | add t =>
    simp only [Pool.getStep]
    constructor
    all_goals grind
  | unlock t =>
    simp only [Pool.getStep, State.goto]
    constructor
    case refused => 
      intro c' hc'
      grind [Function.update_apply, ClientPc.Refused]
    all_goals grind

omit [DecidableEq Client] in
theorem Tight.doneStep {pc : DonePc} (h : Tight cfg s) (hl : s.lock = .task_completed t pc) :
    Tight cfg (doneStep cfg s t pc) := by
  obtain ⟨size_le, blocker_le, empty, full, refused, test, back⟩ := h
  cases pc with
  | remove =>
    simp only [Pool.doneStep]
    split
    all_goals
      constructor
      all_goals grind
  | blockerBack | blockerRelease =>
    have hone := test t _ hl (by simp)
    have hzero := back t _ hl (by simp)
    simp only [Pool.doneStep, hzero, Semaphore.release_of_le 0 (Nat.zero_le 1)]
    constructor
    all_goals grind
  | add =>
    simp only [Pool.doneStep]
    constructor
    case empty =>
      intro _ ha
      simp at ha
    all_goals grind
  | detach | check | blockerTest | busyTest | waiterTest | waiterBack | waiterRelease =>
    simp only [Pool.doneStep]
    constructor
    all_goals grind
  | unlock | throw =>
    simp only [Pool.doneStep, State.become]
    constructor
    all_goals grind

/-- A client outside the lock moves on; it takes a permit at most. -/
theorem Tight.goto {pc : ClientPc Task} {b w : Nat} {given : Nat → Option Task} {submitted : Client → List Task}
    {handed : Client → List (Task × Nat)} (h : Tight cfg s) (hb : b ≤ s.blocker)
    (hpc : pc.Refused → (s.client c).Refused) :
    Tight cfg (State.goto { s with
      blocker := b, waiter := w, task := given, submitted := submitted, handed := handed } c pc) := by
  obtain ⟨size_le, blocker_le, empty, full, refused, test, back⟩ := h
  refine ⟨size_le, Nat.le_trans hb blocker_le, ?_, full, ?_, test, ?_⟩
  · intro hs ha hl
    exact Nat.le_zero.mp (empty hs ha hl ▸ hb)
  · intro c' hc'
    by_cases he : c' = c
    · subst he
      simp only [State.goto, Function.update_self] at hc'
      exact refused c' (hpc hc')
    · simp only [State.goto, Function.update_of_ne he] at hc'
      exact refused c' hc'
  · intro t pc hl hpc
    exact Nat.le_zero.mp (back t pc hl hpc ▸ hb)

theorem Tight.step {a : Event Client Task} (h : Tight cfg s) (hs : step cfg s a = some s') : Tight cfg s' := by
  cases step_cases hs with
  | enter c task retry hc hl =>
    obtain ⟨size_le, blocker_le, empty, full, refused, test, back⟩ := h
    refine ⟨size_le, blocker_le, fun hs ha _ => empty hs ha (by simp [hl]), by simp [State.goto], ?_,
      by simp [State.goto], by simp [State.goto]⟩
    intro c' hc'
    by_cases he : c' = c
    · subst he
      simp only [State.goto, Function.update_self] at hc'
      cases retry with
      | true => exact refused c' (by simp [hc, ClientPc.Refused])
      | false => exact absurd hc' (by simp [ClientPc.Refused])
    · simp only [State.goto, Function.update_of_ne he] at hc'
      exact refused c' hc'
  | get c task retry pc hc hl => exact h.getStep hl
  | acquire c task hc => exact h.goto (Nat.sub_le _ _) (by simp [hc, ClientPc.Refused])
  | wake c t =>
    have hgo := @Tight.goto _ _ cfg s c _ .idle s.blocker s.waiter s.task s.submitted s.handed h (Nat.le_refl _)
      (by simp [ClientPc.Refused])
    split
    · exact ⟨hgo.size_le, hgo.blocker_le, hgo.empty, hgo.full, hgo.refused, hgo.test, hgo.back⟩
    · exact hgo
  | runTask | waitAll | hand | waitDone | waitBusy | waitPass | waitFail | waitAcquire | waitReturn | refuse =>
    exact h.goto (Nat.le_refl _) (by simp [ClientPc.Refused])
  | finish t hw => exact ⟨h.size_le, h.blocker_le, h.empty, h.full, h.refused, h.test, h.back⟩
  | complete t hw hl =>
    obtain ⟨size_le, blocker_le, empty, full, refused, test, back⟩ := h
    refine ⟨size_le, blocker_le, fun hs ha _ => empty hs ha (by simp [hl]), by simp [State.become], refused,
      by simp [State.become], by simp [State.become]⟩
  | done t pc hw hl => exact h.doneStep hl

end Steps

/-- The client is at its second look. -/
def ClientPc.Again : ClientPc Task → Prop
  | .inside _ true => True
  | _ => False

/-- The client came back from `_blocker.acquire` and has not yet looked again. -/
def ClientPc.Returned : ClientPc Task → Prop
  | .enter _ true => True
  | _ => False

def State.Woken (s : State Client Task) (c : Client) : Prop :=
  (s.client c).Returned ∨ (s.client c).Again ∧ s.lock = .getThread c .pick

/-- No client takes the last free thread from one that was woken, nor a permit that has lost its thread. -/
def Orderly (s : State Client Task) : Event Client Task → Prop
  | .client c =>
    (s.lock = .getThread c .pick → s.available.length = 1 → ∀ c', c' ≠ c → ¬ s.Woken c') ∧
    (∀ task, s.client c = .block task → 0 < s.blocker → ∀ c' t, s.lock = .getThread c' (.reach t) → s.available ≠ [])
  | _ => True

/-- The second look of a client finds a thread. -/
structure Fetches (s : State Client Task) : Prop where
  returned : ∀ c, (s.client c).Returned → s.available ≠ []
  again : ∀ c, (s.client c).Again → s.lock = .getThread c .pick → s.available ≠ []
  full : ∀ c, (s.client c).Again → s.lock ≠ .getThread c .full
  never : ∀ c task, s.client c ≠ .null task

theorem fetches_init : Fetches (init cfg : State Client Task) := by
  rw [init_eq]
  exact ⟨by simp [ClientPc.Returned], by simp, by simp, by simp⟩

section Steps

variable [DecidableEq Client]

theorem Fetches.goto {pc : ClientPc Task} {b w : Nat} {given : Nat → Option Task} {submitted : Client → List Task}
    {handed : Client → List (Task × Nat)} (h : Fetches s) (hpc : ¬ pc.Returned) (hi : ¬ pc.Again)
    (hn : ∀ task, pc ≠ .null task) :
    Fetches (State.goto { s with
      blocker := b, waiter := w, task := given, submitted := submitted, handed := handed } c pc) := by
  obtain ⟨returned, again, full, never⟩ := h
  constructor
  all_goals grind

theorem Fetches.getStep {pc : GetPc} (h : Fetches s) (hc : s.client c = .inside task retry)
    (hl : s.lock = .getThread c pc)
    (hok : s.lock = .getThread c .pick → s.available.length = 1 → ∀ c', c' ≠ c → ¬ s.Woken c') :
    Fetches (getStep cfg s c task retry pc) := by
  obtain ⟨returned, again, full, never⟩ := h
  cases pc with
  | pick =>
    simp only [Pool.getStep]
    split
    next t ht =>
      obtain ⟨front, ha⟩ := List.getLast?_eq_some_iff.mp ht
      refine ⟨?_, by simp, by simp, never⟩
      intro c' hc' hnil
      have hne : c' ≠ c := by
        intro he
        rw [he, hc] at hc'
        exact hc'
      have hfront : front = [] := by simpa [ha] using hnil
      exact hok hl (by simp [ha, hfront]) c' hne (Or.inl hc')
    next hnone =>
      have hnil : s.available = [] := by simpa using hnone
      have hreturned : ∀ c', ¬ (s.client c').Returned := fun c' hc' => returned c' hc' hnil
      split
      next => exact ⟨fun c' hc' => absurd hc' (hreturned c'), by simp, by simp, never⟩
      next =>
        refine ⟨fun c' hc' => absurd hc' (hreturned c'), by simp, ?_, never⟩
        intro c' hc' hl'
        cases hl'
        exact again c hc' hl hnil
  | full =>
    have hretry : retry = false := by
      cases retry with
      | true => exact absurd hl (full c (by simp [hc, ClientPc.Again]))
      | false => rfl
    subst hretry
    simp only [Pool.getStep]
    constructor
    all_goals grind [ClientPc.Returned, ClientPc.Again]
  | reach t | first t | add t =>
    simp only [Pool.getStep]
    constructor
    all_goals grind
  | unlock t =>
    simp only [Pool.getStep]
    constructor
    all_goals grind [ClientPc.Returned, ClientPc.Again]

omit [DecidableEq Client] in
theorem Fetches.doneStep {pc : DonePc} (h : Fetches s) (hl : s.lock = .task_completed t pc) :
    Fetches (doneStep cfg s t pc) := by
  obtain ⟨returned, again, full, never⟩ := h
  cases pc with
  | add =>
    exact ⟨by simp [Pool.doneStep], by simp [Pool.doneStep], by simp [Pool.doneStep], never⟩
  | remove =>
    simp only [Pool.doneStep]
    split
    all_goals
      constructor
      all_goals grind
  | _ =>
    simp only [Pool.doneStep, State.become]
    constructor
    all_goals grind

theorem Fetches.step {a : Event Client Task} (h : Fetches s) (ht : Tight cfg s) (hok : Orderly s a)
    (hs : step cfg s a = some s') : Fetches s' := by
  cases step_cases hs with
  | enter c task retry hc hl =>
    obtain ⟨returned, again, full, never⟩ := h
    have hfree : retry = true → s.available ≠ [] := by
      intro he
      exact returned c (by simp [hc, he, ClientPc.Returned])
    constructor
    all_goals grind [ClientPc.Returned, ClientPc.Again]
  | get c task retry pc hc hl => exact h.getStep hc hl hok.1
  | acquire c task hc hb =>
    have hfull := ht.refused c (by simp [hc, ClientPc.Refused])
    have hfree : s.available ≠ [] := by
      intro hnil
      refine absurd (ht.empty hfull hnil ?_) (Nat.ne_of_gt hb)
      intro c' t hl
      exact hok.2 task hc hb c' t hl hnil
    obtain ⟨returned, again, full, never⟩ := h
    refine ⟨fun _ _ => hfree, fun _ _ _ => hfree, ?_, ?_⟩
    all_goals grind [ClientPc.Again]
  | wake c t =>
    have hgo := @Fetches.goto _ _ s c _ .idle s.blocker s.waiter s.task s.submitted s.handed h
      (by simp [ClientPc.Returned]) (by simp [ClientPc.Again]) (by simp)
    split
    · exact ⟨hgo.returned, hgo.again, hgo.full, hgo.never⟩
    · exact hgo
  | runTask | waitAll | hand | waitDone | waitBusy | waitPass | waitFail | waitAcquire | waitReturn | refuse =>
    exact h.goto (by simp [ClientPc.Returned]) (by simp [ClientPc.Again]) (by simp)
  | finish t hw => exact ⟨h.returned, h.again, h.full, h.never⟩
  | complete t hw hl =>
    obtain ⟨returned, again, full, never⟩ := h
    exact ⟨returned, by simp [State.become], by simp [State.become], never⟩
  | done t pc hw hl => exact h.doneStep hl

end Steps

end Srl.Pool
