import Srl.ThreadLifecycle

namespace Srl.Thread.Lifecycle

open Transition

section Sorted

variable {α β : Type*} {k : α → Nat}

theorem eq_filter_append_filter {l : List α} (hl : l.Pairwise fun a b => k a ≤ k b) (n : Nat) :
    l = l.filter (fun a => k a < n) ++ l.filter fun a => k a = n ∨ n < k a := by
  induction l with
  | nil => rfl
  | cons a l ih =>
    obtain ⟨ha, hl⟩ := List.pairwise_cons.mp hl
    by_cases hlt : k a < n
    · rw [List.filter_cons_of_pos (by simpa using hlt), List.filter_cons_of_neg (by simp; omega), List.cons_append,
        ← ih hl]
    · have hnone : l.filter (fun b => k b < n) = [] := by
        refine List.filter_eq_nil_iff.mpr fun b hb => ?_
        have := ha b hb
        simp only [decide_eq_true_eq]
        omega
      have hall : l.filter (fun b => k b = n ∨ n < k b) = l := by
        refine List.filter_eq_self.mpr fun b hb => ?_
        have := ha b hb
        simp only [decide_eq_true_eq]
        omega
      rw [List.filter_cons_of_neg (by simpa using hlt), List.filter_cons_of_pos (by simp; omega), hnone, hall,
        List.nil_append]

/-- A list in the order of a key is made of its parts with each of the keys. -/
theorem eq_flatMap_filter {l : List α} (hl : l.Pairwise fun a b => k a ≤ k b) {n : Nat} (hn : ∀ a ∈ l, k a < n) :
    l = (List.range n).flatMap fun i => l.filter fun a => k a = i := by
  induction n generalizing l with
  | zero =>
    cases l with
    | nil => rfl
    | cons a l => exact absurd (hn a List.mem_cons_self) (Nat.not_lt_zero _)
  | succ n ih =>
    have hsplit := eq_filter_append_filter hl n
    have hlow := ih (hl.sublist (List.filter_sublist (p := fun a => decide (k a < n)))) fun a ha => by
      simpa using (List.mem_filter.mp ha).2
    have hhigh : l.filter (fun a => k a = n ∨ n < k a) = l.filter fun a => k a = n := by
      apply List.filter_congr
      intro a ha
      have := hn a ha
      simp only [decide_eq_decide]
      omega
    have hparts : ∀ i ∈ List.range n,
        (l.filter fun a => k a < n).filter (fun a => k a = i) = l.filter fun a => k a = i := by
      intro i hi
      rw [List.filter_filter]
      apply List.filter_congr
      intro a _
      have := List.mem_range.mp hi
      simp only [← Bool.decide_and, decide_eq_decide]
      omega
    rw [List.range_succ, List.flatMap_append, List.flatMap_singleton]
    conv_lhs => rw [hsplit, hhigh, hlow]
    congr 1
    exact List.flatMap_congr hparts

theorem exists_flatMap {m : Nat} {f : Nat → List α} {g : Nat → List α} (h : ∀ i < m, ∃ n, f i = g n) :
    ∃ ns : List Nat, (List.range m).flatMap f = ns.flatMap g := by
  induction m with
  | zero => exact ⟨[], rfl⟩
  | succ m ih =>
    obtain ⟨ns, hns⟩ := ih fun i hi => h i (by omega)
    obtain ⟨n, hn⟩ := h m (by omega)
    exact ⟨ns ++ [n], by simp [List.range_succ, hns, hn]⟩

end Sorted

/-- Not created in vain and not yet ended. -/
def WorkerPc.Active (pc : WorkerPc) : Prop := pc ≠ .unborn ∧ pc ≠ .dead

/-- `start`, and `cancel` that waits, are called when every thread that was created has made its first step. -/
def Ready (s : State) : Event → Prop
  | .start | .cancel true => .unborn ∉ s.workers
  | _ => True

/-- The owner relies on what it has read of the state, or is going to. -/
def OwnerPc.Looks : OwnerPc → Prop
  | .startTest | .startState | .unpauseTest (some true) | .unpauseClear (some true) | .unpauseState (some true)
  | .unpauseRelease (some true) | .cancelSet true | .join | .joinLast => True
  | _ => False

/-- The owner has found that the thread has ended. -/
def OwnerPc.Clears : OwnerPc → Prop
  | .startClean | .startReset | .startCreate | .cleanUp => True
  | _ => False

/-- At most the last thread that was created is still there, and while it is, the state says so. -/
structure Serial (s : State) : Prop where
  ended : ∀ (i : Nat) (pc : WorkerPc), s.workers[i]? = some pc → i + 1 < s.workers.length → pc = .dead
  alive : ∀ (i : Nat) (pc : WorkerPc), s.workers[i]? = some pc → pc.Active → s.memory._state ≠ .THREAD_DEAD
  handle : s.memory._have_handle = false → s.owner ≠ .startHandle → ∀ pc ∈ s.workers, pc = .dead
  clears : s.owner.Clears → ∀ pc ∈ s.workers, pc = .dead
  looks : s.owner.Looks → .unborn ∉ s.workers
  order : s.log.Pairwise fun a b => a.1 ≤ b.1

theorem serial_init : Serial init := by
  refine ⟨?_, ?_, ?_, ?_, ?_, ?_⟩ <;> simp [init]

/-- A thread does not touch the handle, and the state that it leaves says that it is there. -/
theorem workerStep_state {m m' : Memory} {i : Nat} {pc pc' : WorkerPc} {e : WorkerEvent} {calls : List Callback}
    (h : workerStep m i pc e = some (m', pc', calls)) : pc ≠ .dead ∧ pc' ≠ .unborn ∧ m'._have_handle = m._have_handle ∧
      ((pc.Active → m._state ≠ .THREAD_DEAD) → pc'.Active → m'._state ≠ .THREAD_DEAD) := by
  have hnext : ∀ place, next place ≠ .unborn := by
    intro place
    cases place <;> simp [next]
  unfold workerStep at h
  split at h
  case h_5 =>
    split at h
    · cases h
      exact ⟨by simp, by simp, rfl, fun ha _ => ha (by simp [WorkerPc.Active])⟩
    · cases h
  case h_3 place =>
    cases h
    refine ⟨by simp, ?_, rfl, fun ha _ => ha (by simp [WorkerPc.Active])⟩
    split
    · simp
    · exact hnext place
  case h_6 place =>
    cases h
    exact ⟨by simp, hnext place, rfl, fun ha _ => ha (by simp [WorkerPc.Active])⟩
  case h_19 =>
    cases h
    exact ⟨by simp, by simp, rfl, fun _ hdead => absurd rfl hdead.2⟩
  all_goals
    cases h
  all_goals
    refine ⟨by simp, ?_, rfl, ?_⟩
    · first
        | exact WorkerPc.noConfusion
        | split <;> exact WorkerPc.noConfusion
    · first
        | exact fun ha _ => ha (by simp [WorkerPc.Active])
        | exact fun _ _ => THREAD_STATE.noConfusion

theorem Serial.worker {s s' : State} {i : Nat} {e : WorkerEvent} (h : Serial s) (hc : Called s)
    (hs : step s (.worker i e) = some s') : Serial s' := by
  simp only [step] at hs
  split at hs
  next pc hpc =>
    split at hs
    next m pc' calls hw =>
      obtain rfl := Option.some.inj hs
      obtain ⟨hnotdead, hborn, hhandle, halive⟩ := workerStep_state hw
      obtain ⟨hi, -⟩ := List.getElem?_eq_some_iff.mp hpc
      have hlast : i + 1 = s.workers.length := by
        by_contra hne
        exact hnotdead (h.ended i pc hpc (by omega))
      have hsome : ¬∀ pc ∈ s.workers, pc = .dead := fun hall => hnotdead (hall pc (List.mem_of_getElem? hpc))
      have hother : ∀ (j : Nat) (pcj : WorkerPc), i ≠ j → s.workers[j]? = some pcj → pcj = .dead := by
        intro j pcj hij hj
        have hlt := (List.getElem?_eq_some_iff.mp hj).1
        exact h.ended j pcj hj (by omega)
      refine ⟨?_, ?_, ?_, ?_, ?_, ?_⟩
      · intro j pcj hj hlt
        have hlt : j + 1 < s.workers.length := by simpa using hlt
        rw [List.getElem?_set_ne (by omega)] at hj
        exact h.ended j pcj hj hlt
      · intro j pcj hj hactive
        by_cases hij : i = j
        · subst hij
          rw [List.getElem?_set_self hi] at hj
          obtain rfl := Option.some.inj hj
          exact halive (h.alive i pc hpc) hactive
        · rw [List.getElem?_set_ne hij] at hj
          exact absurd (hother j pcj hij hj) hactive.2
      · intro hh ho
        exact absurd (h.handle (hhandle ▸ hh) ho) hsome
      · intro ho
        exact absurd (h.clears ho) hsome
      · intro ho hmem
        obtain hmem | heq := List.mem_or_eq_of_mem_set hmem
        · exact h.looks ho hmem
        · exact hborn heq.symm
      · refine List.pairwise_append.mpr ⟨h.order, ?_, ?_⟩
        · exact List.pairwise_map.mpr (List.pairwise_of_forall fun _ _ => Nat.le_refl i)
        · intro a ha b hb
          obtain ⟨c, -, rfl⟩ := List.mem_map.mp hb
          have := hc.created a ha
          show a.1 ≤ i
          omega
    next => cases hs
  next => cases hs

theorem Serial.call {s s' : State} {pc : OwnerPc} (h : Serial s) (hs : Lifecycle.call s pc = some s')
    (hclears : ¬pc.Clears) (hlooks : pc.Looks → .unborn ∉ s.workers) : Serial s' := by
  unfold Lifecycle.call at hs
  split at hs
  next hidle =>
    obtain rfl := Option.some.inj hs
    exact ⟨h.ended, h.alive, fun hh _ => h.handle hh (by rw [hidle]; simp), fun ho => absurd ho hclears, hlooks,
      h.order⟩
  next => cases hs

/-- Once the state says that the thread has ended, it has. -/
theorem Serial.all_dead {s : State} (h : Serial s) (hlooks : s.owner.Looks) (hdead : s.memory._state = .THREAD_DEAD) :
    ∀ pc ∈ s.workers, pc = .dead := by
  intro pc hpc
  obtain ⟨i, hi⟩ := List.mem_iff_getElem?.mp hpc
  by_contra hne
  refine h.alive i pc hi ⟨?_, hne⟩ hdead
  rintro rfl
  exact h.looks hlooks hpc

/-- What a step of the owner does that creates no thread. -/
theorem Serial.owns {s : State} {m : Memory} {pc : OwnerPc} (h : Serial s) (hstate : m._state = s.memory._state)
    (hhandle : m._have_handle = false → pc ≠ .startHandle → ∀ pc ∈ s.workers, pc = .dead)
    (hclears : pc.Clears → ∀ pc ∈ s.workers, pc = .dead) (hlooks : pc.Looks → .unborn ∉ s.workers) :
    Serial { s with memory := m, owner := pc } :=
  ⟨h.ended, fun i pc hi ha => hstate ▸ h.alive i pc hi ha, hhandle, hclears, hlooks, h.order⟩

/-- A thread is created when all others have ended. -/
theorem Serial.create {s : State} {m : Memory} (h : Serial s) (hdead : ∀ pc ∈ s.workers, pc = .dead) :
    Serial { s with memory := m, owner := .startHandle, workers := s.workers ++ [.unborn] } := by
  have hold : ∀ (i : Nat) (pc : WorkerPc), i < s.workers.length → (s.workers ++ [WorkerPc.unborn])[i]? = some pc →
      pc = .dead := by
    intro i pc hlt hi
    rw [List.getElem?_append_left hlt] at hi
    exact hdead pc (List.mem_of_getElem? hi)
  refine ⟨?_, ?_, fun _ ho => absurd rfl ho, fun ho => ho.elim, fun ho => ho.elim, h.order⟩
  · intro i pc hi hlt
    refine hold i pc ?_ hi
    simpa using hlt
  · intro i pc hi hactive
    by_cases hlt : i < s.workers.length
    · exact absurd (hold i pc hlt hi) hactive.2
    · have hlen := (List.getElem?_eq_some_iff.mp hi).1
      rw [List.length_append, List.length_singleton] at hlen
      obtain rfl : i = s.workers.length := by omega
      rw [List.getElem?_concat_length] at hi
      exact absurd (Option.some.inj hi).symm hactive.1

theorem looks_afterUnpause {k : Option Bool} (h : (afterUnpause k).Looks) : k = some true := by
  cases k with
  | none => exact h.elim
  | some wait =>
    cases wait with
    | false => exact h.elim
    | true => rfl

theorem not_clears_afterUnpause (k : Option Bool) : ¬(afterUnpause k).Clears ∧ afterUnpause k ≠ .startHandle := by
  cases k <;> exact ⟨fun h => h, OwnerPc.noConfusion⟩

theorem Serial.owner {s s' : State} (h : Serial s) (hs : step s .owner = some s') : Serial s' := by
  simp only [step] at hs
  split at hs
  next m pc created ho =>
    obtain rfl := Option.some.inj hs
    have hpass : s.owner ≠ .startHandle → ∀ {pc : OwnerPc}, s.memory._have_handle = false → pc ≠ .startHandle →
        ∀ pc ∈ s.workers, pc = .dead := fun hne _ hh _ => h.handle hh hne
    unfold ownerStep at ho
    split at ho
    case h_1 => cases ho
    case h_2 hpc =>
      cases ho
      refine h.owns rfl (hpass (by simp [hpc])) ?_ fun _ => h.looks (by simp [hpc, OwnerPc.Looks])
      intro hclears
      split at hclears
      · exact hclears.elim
      · next hhandle => exact h.handle (by simpa using hhandle) (by simp [hpc])
    case h_3 hpc =>
      cases ho
      have hlooks : s.owner.Looks := by simp [hpc, OwnerPc.Looks]
      refine h.owns rfl (hpass (by simp [hpc])) ?_ fun _ => h.looks hlooks
      intro hclears
      split at hclears
      · exact hclears.elim
      · next hdead => exact h.all_dead hlooks (by simpa using hdead)
    case h_4 hpc | h_5 hpc | h_18 hpc =>
      cases ho
      have hdead := h.clears (by simp [hpc, OwnerPc.Clears])
      exact h.owns rfl (fun _ _ => hdead) (fun _ => hdead) fun hl => hl.elim
    case h_6 hpc =>
      cases ho
      exact h.create (h.clears (by simp [hpc, OwnerPc.Clears]))
    case h_7 hpc =>
      cases ho
      exact h.owns rfl (fun hh => by cases hh) (fun hl => hl.elim) fun hl => hl.elim
    case h_8 hpc =>
      cases ho
      refine h.owns rfl (hpass (by simp [hpc])) ?_ ?_ <;> split <;> exact fun hl => hl.elim
    case h_9 hpc | h_10 hpc =>
      cases ho
      exact h.owns rfl (hpass (by simp [hpc])) (fun hl => hl.elim) fun hl => hl.elim
    case h_11 k hpc | h_13 k hpc =>
      cases ho
      have hlooks : k = some true → .unborn ∉ s.workers := fun hk => h.looks (by simp [hpc, hk, OwnerPc.Looks])
      refine h.owns rfl (hpass (by simp [hpc])) ?_ ?_
      · split
        · exact fun hl => hl.elim
        · exact fun hl => absurd hl (not_clears_afterUnpause k).1
      · split
        · intro hl
          obtain _ | _ | _ := k
          · exact hl.elim
          · exact hl.elim
          · exact hlooks rfl
        · exact fun hl => hlooks (looks_afterUnpause hl)
    case h_12 k hpc =>
      cases ho
      refine h.owns rfl (hpass (by simp [hpc])) (fun hl => hl.elim) ?_
      intro hl
      obtain _ | _ | _ := k
      · exact hl.elim
      · exact hl.elim
      · exact h.looks (by simp [hpc, OwnerPc.Looks])
    case h_14 k hpc =>
      cases ho
      exact h.owns rfl (hpass (by simp [hpc])) (fun hl => absurd hl (not_clears_afterUnpause k).1)
        fun hl => h.looks (by simp [hpc, looks_afterUnpause hl, OwnerPc.Looks])
    case h_15 wait hpc =>
      cases ho
      cases wait with
      | true =>
        exact h.owns rfl (hpass (by simp [hpc])) (fun hl => hl.elim) fun _ => h.looks (by simp [hpc, OwnerPc.Looks])
      | false => exact h.owns rfl (hpass (by simp [hpc])) (fun hl => hl.elim) fun hl => hl.elim
    case h_16 hpc | h_17 hpc =>
      cases ho
      have hlooks : s.owner.Looks := by simp [hpc, OwnerPc.Looks]
      refine h.owns rfl (hpass (by simp [hpc])) ?_ fun _ => h.looks hlooks
      intro hclears
      split at hclears
      · exact hclears.elim
      · next hdead => exact h.all_dead hlooks (by simpa using hdead)
  next => cases hs

theorem Serial.step {s s' : State} {e : Event} (h : Serial s ∧ Called s) (hready : Ready s e)
    (hs : step s e = some s') : Serial s' ∧ Called s' := by
  refine ⟨?_, h.2.step hs⟩
  cases e with
  | start => exact h.1.call hs (fun hl => hl) fun _ => hready
  | pause => exact h.1.call hs (fun hl => hl) fun hl => hl.elim
  | unpause => exact h.1.call hs (fun hl => hl) fun hl => hl.elim
  | cancel wait =>
    cases wait with
    | true => exact h.1.call hs (fun hl => hl) fun _ => hready
    | false => exact h.1.call hs (fun hl => hl) fun hl => hl.elim
  | timeout =>
    simp only [Lifecycle.step] at hs
    split at hs
    next hjoin =>
      obtain rfl := Option.some.inj hs
      exact h.1.owns rfl (fun hh _ => h.1.handle hh (by simp [hjoin])) (fun hl => hl.elim)
        fun _ => h.1.looks (by simp [hjoin, OwnerPc.Looks])
    next => cases hs
  | owner => exact h.1.owner hs
  | worker i e => exact h.1.worker h.2 hs

instance (s : State) (e : Event) : Decidable (Ready s e) := by
  unfold Ready
  split <;> infer_instance

/-- A thread that was cancelled is started again. -/
def restarted : List Event :=
  cancelled ++ [.start] ++ List.replicate 6 .owner ++ List.replicate 4 (.worker 1 .step) ++ [.worker 1 (.initial false)]

/-- The owner starts the thread twice before the first one makes its first step: the state still says that nothing is
there, and both threads come to be inside `run`. -/
def startedTwice : List Event :=
  (.start :: List.replicate 4 .owner) ++ (.start :: List.replicate 6 .owner) ++
    [0, 1].flatMap fun i => List.replicate 4 (.worker i .step) ++ [.worker i (.initial true)] ++
      List.replicate 3 (.worker i .step)

theorem not_one_thread : ¬∀ (as : List Event) (s : State), Transition.run step init as = some s →
    ∀ (i j : Nat) (pci pcj : WorkerPc), s.workers[i]? = some pci → s.workers[j]? = some pcj → pci.Active → pcj.Active →
      i = j := by
  intro h
  obtain ⟨s, hs⟩ : ∃ s, Transition.run step init startedTwice = some s := Option.isSome_iff_exists.mp (by decide)
  have hboth : (Transition.run step init startedTwice).map State.workers = some [.run, .run] := by decide
  rw [hs, Option.map_some, Option.some.injEq] at hboth
  have hactive : WorkerPc.run.Active := ⟨WorkerPc.noConfusion, WorkerPc.noConfusion⟩
  exact absurd (h startedTwice s hs 0 1 .run .run (by rw [hboth]; rfl) (by rw [hboth]; rfl) hactive hactive) (by decide)

end Srl.Thread.Lifecycle
