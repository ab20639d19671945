import Mathlib.Logic.Function.Basic
import Srl.Transition

namespace Srl.Singleton

open Transition

/-- The next step of a thread in `__getInstance`, which `FreeInstance` calls to kill the instance; an instance that was
constructed is known by its number. -/
inductive Pc
  | idle
  | test (kill : Bool)
  | lock (kill : Bool)
  | retest (kill : Bool)
  | construct
  | store (i : Nat)
  | drop
  | unlock
  | read
deriving DecidableEq

/-- The static pointer, and how many instances were constructed and how many were dropped. -/
structure Memory where
  __instance : Option Nat
  made : Nat
  dropped : Nat
deriving DecidableEq

/-- What a call returned, and whether an instance was dropped while it went on. -/
structure Returned (Thread : Type) where
  thread : Thread
  result : Option Nat
  lost : Bool
deriving DecidableEq

structure State (Thread : Type) where
  memory : Memory
  __sing_mutex : Option Thread
  pc : Thread → Pc
  lost : Thread → Bool
  returned : List (Returned Thread)

inductive Event (Thread : Type)
  | GetInstance (c : Thread)
  | FreeInstance (c : Thread)
  | thread (c : Thread)

variable {Thread : Type}

def init : State Thread := ⟨⟨none, 0, 0⟩, none, fun _ => .idle, fun _ => false, []⟩

section Steps

variable [DecidableEq Thread] (s : State Thread)

def State.goto (c : Thread) (pc : Pc) : State Thread := { s with pc := Function.update s.pc c pc }

def call (c : Thread) (kill : Bool) : Option (State Thread) :=
  if s.pc c = .idle then some ({ s with lost := Function.update s.lost c false }.goto c (.test kill)) else none

/-- A step under the lock: what becomes of the pointer, and the next step. -/
def guardedStep (m : Memory) : Pc → Option (Memory × Pc)
  | .retest kill => some (m, if m.__instance = none then .construct else if kill then .drop else .unlock)
  | .construct => some ({ m with made := m.made + 1 }, .store m.made)
  | .store i => some ({ m with __instance := some i }, .unlock)
  | .drop => some ({ m with __instance := none, dropped := m.dropped + 1 }, .unlock)
  | _ => none

def threadStep (c : Thread) : Option (State Thread) :=
  match s.pc c with
  | .idle => none
  | .test kill => some (s.goto c (if s.memory.__instance = none ∨ kill then .lock kill else .read))
  | .lock kill => if s.__sing_mutex = none then some ({ s with __sing_mutex := some c }.goto c (.retest kill)) else none
  | .unlock => some ({ s with __sing_mutex := none }.goto c .read)
  | .read => some ({ s with returned := ⟨c, s.memory.__instance, s.lost c⟩ :: s.returned }.goto c .idle)
  | pc =>
    match guardedStep s.memory pc with
    | some (m, pc') => some ({ s with memory := m, lost := fun c' => s.lost c' || pc == Pc.drop }.goto c pc')
    | none => none

def step : Event Thread → Option (State Thread)
  | .GetInstance c => call s c false
  | .FreeInstance c => call s c true
  | .thread c => threadStep s c

end Steps

/-- All instances but the last one were dropped, and the last one is the one that the pointer has. -/
def Memory.Settled (m : Memory) : Prop :=
  (m.__instance = none ∧ m.made = m.dropped) ∨ (m.__instance = some m.dropped ∧ m.made = m.dropped + 1)

/-- The steps that are made under the lock. -/
def Pc.Inside : Pc → Prop
  | .retest _ | .construct | .store _ | .drop | .unlock => True
  | _ => False

/-- The memory in front of a step under the lock. -/
def Pc.Finds (m : Memory) : Pc → Prop
  | .construct => m.__instance = none ∧ m.made = m.dropped
  | .store i => m.__instance = none ∧ i = m.dropped ∧ m.made = m.dropped + 1
  | .drop => m.__instance = some m.dropped ∧ m.made = m.dropped + 1
  | _ => m.Settled

/-- The steps behind which a call returns what the pointer has. -/
def Pc.Leaves : Pc → Prop
  | .unlock | .read => True
  | _ => False

/-- What every step keeps. -/
structure Guarded (s : State Thread) : Prop where
  held : ∀ c, (s.pc c).Inside ↔ s.__sing_mutex = some c
  finds : ∀ c, s.__sing_mutex = some c → (s.pc c).Finds s.memory
  settled : s.__sing_mutex = none → s.memory.Settled
  leaves : ∀ c, (s.pc c).Leaves → s.memory.__instance = none → s.lost c = true
  lost : ∀ c, s.lost c = true → 0 < s.memory.dropped
  returned : ∀ r ∈ s.returned, (r.result = none → r.lost = true) ∧ (r.lost = true → 0 < s.memory.dropped) ∧
    ∀ i, r.result = some i → i ≤ s.memory.dropped

theorem guarded_init : Guarded (init : State Thread) where
  held _ := ⟨fun h => h.elim, fun h => by cases h⟩
  finds _ h := by cases h
  settled _ := Or.inl ⟨rfl, rfl⟩
  leaves _ h := h.elim
  lost _ h := by cases h
  returned _ h := absurd h List.not_mem_nil

variable {s s' : State Thread} {c c' : Thread} {pc pc' : Pc} {m : Memory} {kill : Bool} {i : Nat}

theorem Pc.Finds.latest (h : pc.Finds m) (hi : m.__instance = some i) : i = m.dropped := by
  have hsettled : m.Settled → i = m.dropped := by
    rintro (⟨hnone, -⟩ | ⟨hsome, -⟩)
    · cases hnone.symm.trans hi
    · exact Option.some.inj (hi.symm.trans hsome)
  cases pc with
  | construct => cases h.1.symm.trans hi
  | store j => cases h.1.symm.trans hi
  | drop => exact Option.some.inj (hi.symm.trans h.1)
  | _ => exact hsettled h

theorem Pc.Finds.made_le (h : pc.Finds m) : m.made ≤ m.dropped + 1 := by
  have hsettled : m.Settled → m.made ≤ m.dropped + 1 := by
    rintro (⟨-, hmade⟩ | ⟨-, hmade⟩) <;> omega
  cases pc with
  | construct => exact Nat.le_succ_of_le (Nat.le_of_eq h.2)
  | store j => exact Nat.le_of_eq h.2.2
  | drop => exact Nat.le_of_eq h.2
  | _ => exact hsettled h

theorem Guarded.memory (h : Guarded s) : s.memory.made ≤ s.memory.dropped + 1 ∧
    ∀ i, s.memory.__instance = some i → i = s.memory.dropped := by
  have hfinds : ∃ pc : Pc, pc.Finds s.memory := by
    cases hm : s.__sing_mutex with
    | none => exact ⟨.idle, h.settled hm⟩
    | some c => exact ⟨s.pc c, h.finds c hm⟩
  obtain ⟨pc, hpc⟩ := hfinds
  exact ⟨hpc.made_le, fun i hi => hpc.latest hi⟩

theorem guardedStep_inside {x : Memory × Pc} (h : guardedStep m pc = some x) : pc.Inside := by
  cases pc with
  | retest | construct | store | drop => trivial
  | _ => cases h

/-- A step under the lock leaves the memory as the next step finds it. -/
theorem guardedStep_finds (h : pc.Finds m) {m' : Memory} (hstep : guardedStep m pc = some (m', pc')) :
    pc'.Inside ∧ pc'.Finds m' ∧ m.dropped ≤ m'.dropped ∧
      (pc ≠ .drop → m'.__instance = none → m.__instance = none ∧ ¬pc'.Leaves) ∧ (pc = .drop → 0 < m'.dropped) := by
  cases pc with
  | retest kill =>
    cases hstep
    have hsettled : m.Settled := h
    refine ⟨?_, ?_, Nat.le_refl _, ?_, fun he => by cases he⟩
    · split
      · trivial
      · split <;> trivial
    · split
      next hnone => exact hsettled.resolve_right fun hsome => by cases hnone.symm.trans hsome.1
      next hsome =>
        have hlast := hsettled.resolve_left fun hnone => hsome hnone.1
        split
        · exact hlast
        · exact hsettled
    · intro _ hnone
      rw [if_pos hnone]
      exact ⟨hnone, id⟩
  | construct =>
    cases hstep
    refine ⟨trivial, ⟨h.1, h.2, congrArg (· + 1) h.2⟩, Nat.le_refl _, ?_, fun he => by cases he⟩
    intro _ hnone
    exact ⟨hnone, id⟩
  | store i =>
    cases hstep
    refine ⟨trivial, Or.inr ⟨congrArg some h.2.1, h.2.2⟩, Nat.le_refl _, ?_, fun he => by cases he⟩
    intro _ hnone
    cases hnone
  | drop =>
    cases hstep
    exact ⟨trivial, Or.inl ⟨rfl, h.2⟩, Nat.le_succ _, fun hne => absurd rfl hne, fun _ => Nat.succ_pos _⟩
  | _ => cases hstep

variable [DecidableEq Thread]

@[simp] theorem pc_goto (s : State Thread) (c c' : Thread) (pc : Pc) :
    (s.goto c pc).pc c' = if c' = c then pc else s.pc c' := Function.update_apply s.pc c pc c'

/-- A step of a thread that neither has the lock nor takes it. -/
theorem Guarded.outside (h : Guarded s) (hout : ¬(s.pc c).Inside) (hnew : ¬pc.Inside)
    (hleaves : pc.Leaves → s.memory.__instance = none → s.lost c = true) : Guarded (s.goto c pc) := by
  refine ⟨?_, ?_, h.settled, ?_, h.lost, h.returned⟩
  · intro c'
    rw [pc_goto]
    split
    next heq =>
      rw [heq]
      exact ⟨fun hin => absurd hin hnew, fun hheld => absurd ((h.held c).mpr hheld) hout⟩
    next => exact h.held c'
  · intro c' hheld
    rw [pc_goto, if_neg]
    · exact h.finds c' hheld
    · rintro rfl
      exact hout ((h.held c').mpr hheld)
  · intro c' hc' hnone
    rw [pc_goto] at hc'
    split at hc'
    next heq =>
      rw [heq]
      exact hleaves hc' hnone
    next => exact h.leaves c' hc' hnone

theorem Guarded.lock (h : Guarded s) (hfree : s.__sing_mutex = none) :
    Guarded ({ s with __sing_mutex := some c }.goto c (.retest kill)) := by
  have hnobody : ∀ c', ¬(s.pc c').Inside := by
    intro c' hin
    cases hfree.symm.trans ((h.held c').mp hin)
  refine ⟨?_, ?_, fun hnone => (by cases hnone), ?_, h.lost, h.returned⟩
  · intro c'
    rw [pc_goto]
    split
    next heq => exact ⟨fun _ => congrArg some heq.symm, fun _ => trivial⟩
    next hne => exact ⟨fun hin => absurd hin (hnobody c'), fun hheld => absurd (Option.some.inj hheld).symm hne⟩
  · intro c' hheld
    obtain rfl : c = c' := Option.some.inj hheld
    rw [pc_goto, if_pos rfl]
    exact h.settled hfree
  · intro c' hc' hnone
    rw [pc_goto] at hc'
    split at hc'
    next => exact hc'.elim
    next => exact h.leaves c' hc' hnone

theorem Guarded.unlock (h : Guarded s) (hpc : s.pc c = .unlock) :
    Guarded ({ s with __sing_mutex := none }.goto c .read) := by
  have hheld : s.__sing_mutex = some c := (h.held c).mp (by rw [hpc]; trivial)
  have hfinds := h.finds c hheld
  rw [hpc] at hfinds
  refine ⟨?_, fun c' hc' => (by cases hc'), fun _ => hfinds, ?_, h.lost, h.returned⟩
  · intro c'
    rw [pc_goto]
    split
    next => exact ⟨fun hin => hin.elim, fun hnone => by cases hnone⟩
    next hne =>
      refine ⟨fun hin => ?_, fun hnone => by cases hnone⟩
      exact absurd (Option.some.inj (hheld.symm.trans ((h.held c').mp hin))).symm hne
  · intro c' hc' hnone
    rw [pc_goto] at hc'
    split at hc'
    next heq =>
      rw [heq]
      exact h.leaves c (by rw [hpc]; trivial) hnone
    next => exact h.leaves c' hc' hnone

theorem Guarded.inside (h : Guarded s) (hstep : guardedStep s.memory (s.pc c) = some (m, pc)) :
    Guarded ({ s with memory := m, lost := fun c' => s.lost c' || s.pc c == Pc.drop }.goto c pc) := by
  have hheld : s.__sing_mutex = some c := (h.held c).mp (guardedStep_inside hstep)
  obtain ⟨hnew, hfinds, hdropped, hkeeps, hdrop⟩ := guardedStep_finds (h.finds c hheld) hstep
  refine ⟨?_, ?_, fun hnone => (by cases hheld.symm.trans hnone), ?_, ?_, ?_⟩
  · intro c'
    rw [pc_goto]
    split
    next heq =>
      rw [heq]
      exact ⟨fun _ => hheld, fun _ => hnew⟩
    next => exact h.held c'
  · intro c' hc'
    obtain rfl : c = c' := Option.some.inj (hheld.symm.trans hc')
    rw [pc_goto, if_pos rfl]
    exact hfinds
  · intro c' hc' hnone
    show (s.lost c' || s.pc c == Pc.drop) = true
    by_cases hpc : s.pc c = .drop
    · simp [hpc]
    · obtain ⟨hold, hstays⟩ := hkeeps hpc hnone
      rw [pc_goto] at hc'
      split at hc'
      next => exact absurd hc' hstays
      next => rw [h.leaves c' hc' hold, Bool.true_or]
  · intro c' hlost
    have hlost : (s.lost c' || s.pc c == Pc.drop) = true := hlost
    rw [Bool.or_eq_true, beq_iff_eq] at hlost
    obtain hlost | hpc := hlost
    · exact Nat.lt_of_lt_of_le (h.lost c' hlost) hdropped
    · exact hdrop hpc
  · intro r hr
    obtain ⟨hnone, hlost, hle⟩ := h.returned r hr
    exact ⟨hnone, fun h' => Nat.lt_of_lt_of_le (hlost h') hdropped, fun i hi => Nat.le_trans (hle i hi) hdropped⟩

theorem Guarded.call (h : Guarded s) (hcall : Singleton.call s c kill = some s') : Guarded s' := by
  unfold Singleton.call at hcall
  split at hcall
  next hidle =>
    cases hcall
    have hcalled : Guarded { s with lost := Function.update s.lost c false } := by
      refine ⟨h.held, h.finds, h.settled, ?_, ?_, h.returned⟩
      · intro c' hc' hnone
        have hne : c' ≠ c := by
          rintro rfl
          have hc' : (s.pc c').Leaves := hc'
          rw [hidle] at hc'
          exact hc'
        show Function.update s.lost c false c' = true
        rw [Function.update_of_ne hne]
        exact h.leaves c' hc' hnone
      · intro c' hlost
        have hlost : Function.update s.lost c false c' = true := hlost
        rw [Function.update_apply] at hlost
        split at hlost
        · cases hlost
        · exact h.lost c' hlost
    apply hcalled.outside
    · rw [hidle]
      exact id
    · exact id
    · exact fun hleaves => hleaves.elim
  next => cases hcall

theorem Guarded.read (h : Guarded s) (hpc : s.pc c = .read) :
    Guarded ({ s with returned := ⟨c, s.memory.__instance, s.lost c⟩ :: s.returned }.goto c .idle) := by
  have hread : Guarded { s with returned := ⟨c, s.memory.__instance, s.lost c⟩ :: s.returned } := by
    refine ⟨h.held, h.finds, h.settled, h.leaves, h.lost, ?_⟩
    intro r hr
    obtain rfl | hr := List.mem_cons.mp hr
    · exact ⟨h.leaves c (by rw [hpc]; trivial), h.lost c, fun i hi => Nat.le_of_eq (h.memory.2 i hi)⟩
    · exact h.returned r hr
  apply hread.outside
  · show ¬(s.pc c).Inside
    rw [hpc]
    exact id
  · exact id
  · exact fun hleaves => hleaves.elim

theorem Guarded.step {e : Event Thread} (h : Guarded s) (hstep : Singleton.step s e = some s') : Guarded s' := by
  cases e with
  | GetInstance c => exact h.call hstep
  | FreeInstance c => exact h.call hstep
  | thread c =>
    have hstep : threadStep s c = some s' := hstep
    unfold threadStep at hstep
    split at hstep
    next => cases hstep
    next kill hpc =>
      cases hstep
      apply h.outside
      · rw [hpc]
        exact id
      · split <;> exact id
      · intro hleaves hnone
        rw [if_pos (Or.inl hnone)] at hleaves
        exact hleaves.elim
    next kill hpc =>
      split at hstep
      next hfree =>
        cases hstep
        exact h.lock hfree
      next => cases hstep
    next hpc =>
      cases hstep
      exact h.unlock hpc
    next hpc =>
      cases hstep
      exact h.read hpc
    next =>
      split at hstep
      next m pc hguarded =>
        cases hstep
        exact h.inside hguarded
      next => cases hstep

/-- A thread has seen the instance when another one kills it. -/
def killed : List (Event Bool) :=
  [.GetInstance true] ++ List.replicate 7 (.thread true) ++ [.GetInstance true, .thread true, .FreeInstance false] ++
    List.replicate 4 (.thread false) ++ [.thread true]

example : (run step (init : State Bool) killed).map State.returned =
    some [⟨true, none, true⟩, ⟨true, some 0, false⟩] := by decide

end Srl.Singleton
