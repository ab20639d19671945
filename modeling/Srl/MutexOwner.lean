import Mathlib.Algebra.Order.Ring.Nat
import Srl.Mutex

namespace Srl.Mutex

open Transition

variable {Thread : Type} {id : Thread → THREAD_ID} {s s' : State Thread} {c : Thread}

/-- A thread that does not hold the pthread mutex is at one of these steps. -/
def Pc.Outside : Pc → Prop
  | .idle | .lockTest _ | .lockPthread _ | .unlockTest => True
  | _ => False

def Pc.Locking : Pc → Prop
  | .lockTest _ | .lockPthread _ | .lockOwn | .lockFlag | .lockRead | .lockWrite _ => True
  | _ => False

/-- What the step of the thread that holds the pthread mutex says about owner, counter and depth. -/
def Holding (id : Thread → THREAD_ID) (s : State Thread) (c : Thread) : Prop :=
  match s.pc c with
  | .idle | .lockTest _ | .unlockTest | .unlockZero | .unlockRead =>
    0 < s.depth c ∧ s._thread_id = id c ∧ s._counter.toNat = s.depth c
  | .lockPthread _ => False
  | .lockOwn => s.depth c = 0 ∧ s._counter = 0
  | .lockFlag | .lockRead => s._thread_id = id c ∧ s._counter.toNat = s.depth c
  | .lockWrite counter => s._thread_id = id c ∧ s._counter.toNat = s.depth c ∧ counter = s._counter
  | .unlockWrite counter =>
    0 < s.depth c ∧ s._thread_id = id c ∧ s._counter.toNat = s.depth c ∧ counter = s._counter
  | .unlockLast => s._thread_id = id c ∧ s._counter.toNat + 1 = s.depth c
  | .unlockFlag | .unlockDisown => s._thread_id = id c ∧ s._counter = 0 ∧ s.depth c = 1
  | .unlockBelow => s._counter ≠ 0 ∧ s._thread_id = id c ∧ s._counter.toNat + 1 = s.depth c
  | .unlockCheck =>
    s._counter.toNat + 1 = s.depth c ∧ (s._counter = 0 → s._thread_id = NULL_THREAD) ∧
      (s._counter ≠ 0 → s._thread_id = id c)
  | .unlockPthread => s._counter = 0 ∧ s.depth c = 1 ∧ s._thread_id = NULL_THREAD

/-- Only the holder of the pthread mutex is inside, and owner and counter are what its step says. -/
structure Guarded (id : Thread → THREAD_ID) (s : State Thread) : Prop where
  outside : ∀ c, s._pmutex.holder ≠ some c → s.depth c = 0 ∧ (s.pc c).Outside
  free : s._pmutex.holder = none → s._thread_id = NULL_THREAD ∧ s._counter = 0
  owner : ∀ c, s._pmutex.holder = some c → s._thread_id = NULL_THREAD ∨ s._thread_id = id c
  held : ∀ c, s._pmutex.holder = some c → Holding id s c ∧ s._pmutex.count = 1
  room : ∀ c, (s.pc c).Locking → s.depth c + 1 < 2 ^ 32

/-- No thread takes the mutex again that it has already 2 ^ 32 - 1 times. -/
def Shallow (s : State Thread) : Event Thread → Prop
  | .lock c | .tryLock c => s.depth c + 1 < 2 ^ 32
  | _ => True

theorem guarded_init : Guarded id (init : State Thread) :=
  ⟨fun _ _ => ⟨rfl, trivial⟩, fun _ => ⟨rfl, rfl⟩, by simp [init], by simp [init], by simp [init, Pc.Locking]⟩

/-- A step of the holder that keeps the pthread mutex. -/
theorem Guarded.inside (h : Guarded id s) (hc : s._pmutex.holder = some c) (hm : s'._pmutex = s._pmutex)
    (hpc : ∀ c', c' ≠ c → s'.pc c' = s.pc c') (hd : ∀ c', c' ≠ c → s'.depth c' = s.depth c')
    (ho : s'._thread_id = NULL_THREAD ∨ s'._thread_id = id c) (hh : Holding id s' c)
    (hr : (s'.pc c).Locking → s'.depth c + 1 < 2 ^ 32) : Guarded id s' := by
  have honly : ∀ c', s'._pmutex.holder = some c' → c' = c := by
    intro c' hc'
    rw [hm, hc] at hc'
    cases hc'
    rfl
  refine ⟨?_, ?_, ?_, ?_, ?_⟩
  · intro c' hc'
    have hne : c' ≠ c := by
      intro he
      exact hc' (by rw [hm, hc, he])
    rw [hpc c' hne, hd c' hne]
    exact h.outside c' (hm ▸ hc')
  · intro hnone
    rw [hm, hc] at hnone
    cases hnone
  · intro c' hc'
    rw [honly c' hc']
    exact ho
  · intro c' hc'
    rw [honly c' hc', hm]
    exact ⟨hh, (h.held c hc).2⟩
  · intro c' hl
    by_cases he : c' = c
    · rw [he] at hl ⊢
      exact hr hl
    · rw [hpc c' he] at hl
      rw [hd c' he]
      exact h.room c' hl

/-- A step of a thread that stays outside. -/
theorem Guarded.apart (h : Guarded id s) (hc : s._pmutex.holder ≠ some c) (hm : s'._pmutex = s._pmutex)
    (ht : s'._thread_id = s._thread_id) (hn : s'._counter = s._counter)
    (hpc : ∀ c', c' ≠ c → s'.pc c' = s.pc c') (hd : ∀ c', s'.depth c' = s.depth c')
    (hout : (s'.pc c).Outside) : Guarded id s' := by
  have hzero := (h.outside c hc).1
  refine ⟨?_, ?_, ?_, ?_, ?_⟩
  · intro c' hc'
    rw [hm] at hc'
    obtain ⟨hz, ho⟩ := h.outside c' hc'
    by_cases he : c' = c
    · rw [he, hd c]
      exact ⟨hzero, hout⟩
    · rw [hpc c' he, hd c']
      exact ⟨hz, ho⟩
  · rw [hm, ht, hn]
    exact h.free
  · rw [hm, ht]
    exact h.owner
  · intro c' hc'
    rw [hm] at hc' ⊢
    have hne : c' ≠ c := by
      intro he
      exact hc (he ▸ hc')
    have hheld := h.held c' hc'
    unfold Holding at hheld ⊢
    rw [hpc c' hne, hd c', ht, hn]
    exact hheld
  · intro c' hl
    rw [hd c']
    by_cases he : c' = c
    · rw [he, hzero]
      decide
    · rw [hpc c' he] at hl
      exact h.room c' hl

theorem not_own (hid : Function.Injective id) (hnull : ∀ c, id c ≠ NULL_THREAD) (h : Guarded id s)
    (hc : s._pmutex.holder ≠ some c) : s._thread_id ≠ id c := by
  intro he
  cases hh : s._pmutex.holder with
  | none => exact hnull c (he.symm.trans (h.free hh).1)
  | some c' =>
    cases h.owner c' hh with
    | inl ho => exact hnull c (he.symm.trans ho)
    | inr ho =>
      apply hc
      rw [hh, hid (ho.symm.trans he)]

section Steps

variable [DecidableEq Thread]

theorem Guarded.outsideStep (hid : Function.Injective id) (hnull : ∀ c, id c ≠ NULL_THREAD) (h : Guarded id s)
    (hc : s._pmutex.holder ≠ some c) (hs : threadStep id s c = some s') : Guarded id s' := by
  have hown := not_own hid hnull h hc
  have hout := h.outside c hc
  have hstay : ∀ pc : Pc, pc.Outside → Guarded id (s.goto c pc) := by
    intro pc hpc
    refine h.apart hc rfl rfl rfl ?_ (fun _ => rfl) ?_
    · intro c' hne
      exact Function.update_of_ne hne _ _
    · simpa [State.goto] using hpc
  have hanswer : ∀ r, Guarded id (s.answer c (s.depth c) r) := by
    intro r
    refine h.apart hc rfl rfl rfl ?_ ?_ ?_
    · intro c' hne
      exact Function.update_of_ne hne _ _
    · intro c'
      simp [State.answer, Function.update_eq_self]
    · simp [State.answer, Pc.Outside]
  unfold threadStep at hs
  cases hpc : s.pc c with
  | lockTest tries =>
    simp only [hpc, if_pos hown, Option.some.injEq] at hs
    subst hs
    exact hstay _ trivial
  | unlockTest =>
    simp only [hpc, if_pos hown, Option.some.injEq] at hs
    subst hs
    exact hanswer _
  | lockPthread tries =>
    simp only [hpc, pthread_mutex_lock] at hs
    cases hh : s._pmutex.holder with
    | some c' =>
      have hne : c' ≠ c := by
        intro he
        exact hc (by rw [hh, he])
      simp only [hh, if_neg hne] at hs
      split at hs
      next => cases hs; exact hanswer _
      next => cases hs
    | none =>
      simp only [hh, Option.some.injEq] at hs
      subst hs
      obtain ⟨hnobody, hzero⟩ := h.free hh
      have hroom := h.room c (by rw [hpc]; trivial)
      refine ⟨?_, ?_, ?_, ?_, ?_⟩
      · intro c' hc'
        have hne : c' ≠ c := by
          intro he
          exact hc' (by rw [he]; rfl)
        simp only [State.goto, Function.update_of_ne hne]
        exact h.outside c' (by rw [hh]; simp)
      · intro hnone
        cases hnone
      · intro c' _
        exact Or.inl hnobody
      · intro c' hc'
        cases hc'
        exact ⟨by simpa [Holding, State.goto] using ⟨hout.1, hzero⟩, rfl⟩
      · intro c' hl
        by_cases he : c' = c
        · rw [he]
          exact hroom
        · simp only [State.goto, Function.update_of_ne he] at hl
          exact h.room c' hl
  | idle => simp [hpc] at hs
  | _ =>
    rw [hpc] at hout
    exact hout.2.elim

/-- The holder goes on to another step of its call. -/
theorem Guarded.goto {s₁ : State Thread} {pc : Pc} (h : Guarded id s) (hc : s._pmutex.holder = some c)
    (hm : s₁._pmutex = s._pmutex) (hpc : s₁.pc = s.pc) (hd : s₁.depth = s.depth)
    (ho : s₁._thread_id = NULL_THREAD ∨ s₁._thread_id = id c) (hh : Holding id (s₁.goto c pc) c)
    (hl : pc.Locking → (s.pc c).Locking) : Guarded id (s₁.goto c pc) := by
  refine h.inside hc hm ?_ ?_ ho hh ?_
  · intro c' hne
    simp only [State.goto, Function.update_of_ne hne, hpc]
  · intro c' _
    rw [← hd]
    rfl
  · intro hlock
    simp only [State.goto, Function.update_self] at hlock
    simpa [State.goto, hd] using h.room c (hl hlock)

/-- It returns, and keeps the pthread mutex. -/
theorem Guarded.answer {s₁ : State Thread} {d : Nat} (r : Result) (h : Guarded id s) (hc : s._pmutex.holder = some c)
    (hm : s₁._pmutex = s._pmutex) (hpc : s₁.pc = s.pc) (hd : s₁.depth = s.depth) (ho : s₁._thread_id = id c)
    (hpos : 0 < d) (hn : s₁._counter.toNat = d) : Guarded id (s₁.answer c d r) := by
  refine h.inside hc hm ?_ ?_ (Or.inr ho) ?_ ?_
  · intro c' hne
    simp only [State.answer, Function.update_of_ne hne, hpc]
  · intro c' hne
    simp only [State.answer, Function.update_of_ne hne, hd]
  · simpa [Holding, State.answer] using ⟨hpos, ho, hn⟩
  · simp [State.answer, Pc.Locking]

/-- It returns, and gives the pthread mutex back. -/
theorem Guarded.release (r : Result) (h : Guarded id s) (hc : s._pmutex.holder = some c) (hz : s._counter = 0)
    (hnull : s._thread_id = NULL_THREAD) : Guarded id ({ s with _pmutex := ⟨none, 0⟩ }.answer c 0 r) := by
  refine ⟨?_, fun _ => ⟨hnull, hz⟩, by simp [State.answer], by simp [State.answer], ?_⟩
  · intro c' _
    by_cases he : c' = c
    · simp [State.answer, he, Pc.Outside]
    · simp only [State.answer, Function.update_of_ne he]
      apply h.outside c'
      rw [hc]
      intro heq
      cases heq
      exact he rfl
  · intro c' hl
    by_cases he : c' = c
    · simp [State.answer, he, Pc.Locking] at hl
    · simp only [State.answer, Function.update_of_ne he] at hl ⊢
      exact h.room c' hl

theorem Guarded.holderStep (h : Guarded id s) (hc : s._pmutex.holder = some c)
    (hs : threadStep id s c = some s') : Guarded id s' := by
  obtain ⟨hheld, hcount⟩ := h.held c hc
  unfold threadStep at hs
  unfold Holding at hheld
  cases hpc : s.pc c with
  | idle => simp [hpc] at hs
  | lockPthread tries => simp [hpc] at hheld
  | lockTest tries =>
    simp only [hpc, Option.some.injEq] at hheld hs
    rw [if_neg (fun hne => hne hheld.2.1)] at hs
    subst hs
    exact h.goto hc rfl rfl rfl (Or.inr hheld.2.1) (by simpa [Holding, State.goto] using hheld.2)
      (fun _ => by rw [hpc]; trivial)
  | lockOwn =>
    simp only [hpc, Option.some.injEq] at hheld hs
    subst hs
    exact h.goto hc rfl rfl rfl (Or.inr rfl)
      (by simp [Holding, State.goto, hheld]) (fun _ => by rw [hpc]; trivial)
  | lockFlag =>
    simp only [hpc, Option.some.injEq] at hheld hs
    subst hs
    exact h.goto hc rfl rfl rfl (Or.inr hheld.1)
      (by simpa [Holding, State.goto] using hheld) (fun _ => by rw [hpc]; trivial)
  | lockRead =>
    simp only [hpc, Option.some.injEq] at hheld hs
    subst hs
    exact h.goto hc rfl rfl rfl (Or.inr hheld.1) (by simpa [Holding, State.goto] using hheld)
      (fun _ => by rw [hpc]; trivial)
  | lockWrite counter =>
    simp only [hpc, Option.some.injEq] at hheld hs
    subst hs
    obtain ⟨hown, hn, rfl⟩ := hheld
    have hsmall := h.room c (by rw [hpc]; trivial)
    have hnext : (s._counter + 1).toNat = s.depth c + 1 := by
      simp only [UInt32.toNat_add, hn, UInt32.toNat_one]
      omega
    exact @Guarded.answer _ _ _ _ _ { s with _counter := s._counter + 1 } _ _ h hc rfl rfl rfl hown
      (Nat.succ_pos _) hnext
  | unlockTest =>
    simp only [hpc] at hheld hs
    rw [if_neg (fun hne => hne hheld.2.1)] at hs
    cases hs
    exact h.goto hc rfl rfl rfl (Or.inr hheld.2.1) (by simpa [Holding, State.goto] using hheld) (fun h => h.elim)
  | unlockZero =>
    simp only [hpc] at hheld hs
    have hne : s._counter ≠ 0 := by
      intro hz
      rw [hz] at hheld
      exact absurd hheld.2.2 (Nat.ne_of_lt hheld.1)
    rw [if_neg hne] at hs
    cases hs
    exact h.goto hc rfl rfl rfl (Or.inr hheld.2.1) (by simpa [Holding, State.goto] using hheld) (fun h => h.elim)
  | unlockRead =>
    simp only [hpc, Option.some.injEq] at hheld hs
    subst hs
    exact h.goto hc rfl rfl rfl (Or.inr hheld.2.1) (by simpa [Holding, State.goto] using hheld) (fun h => h.elim)
  | unlockWrite counter =>
    simp only [hpc, Option.some.injEq] at hheld hs
    subst hs
    obtain ⟨hpos, hown, hn, rfl⟩ := hheld
    have hle : (1 : UInt32) ≤ s._counter := by
      rw [UInt32.le_iff_toNat_le, hn]
      exact hpos
    have hsub : (s._counter - 1).toNat + 1 = s.depth c := by
      rw [UInt32.toNat_sub_of_le _ _ hle, hn, UInt32.toNat_one]
      omega
    exact h.goto hc rfl rfl rfl (Or.inr hown)
      (by simpa [Holding, State.goto] using ⟨hown, hsub⟩) (fun h => h.elim)
  | unlockLast =>
    simp only [hpc, Option.some.injEq] at hheld hs
    subst hs
    split
    next hz =>
      have hone : s.depth c = 1 := by
        rw [← hheld.2, hz]
        rfl
      exact h.goto hc rfl rfl rfl (Or.inr hheld.1)
        (by simpa [Holding, State.goto] using ⟨hheld.1, hz, hone⟩) (fun h => h.elim)
    next hz =>
      exact h.goto hc rfl rfl rfl (Or.inr hheld.1)
        (by simpa [Holding, State.goto] using ⟨hz, hheld⟩) (fun h => h.elim)
  | unlockFlag =>
    simp only [hpc, Option.some.injEq] at hheld hs
    subst hs
    exact h.goto hc rfl rfl rfl (Or.inr hheld.1)
      (by simpa [Holding, State.goto] using hheld) (fun h => h.elim)
  | unlockDisown =>
    simp only [hpc, Option.some.injEq] at hheld hs
    subst hs
    exact h.goto hc rfl rfl rfl (Or.inl rfl)
      (by simp [Holding, State.goto, hheld]) (fun h => h.elim)
  | unlockBelow =>
    simp only [hpc] at hheld hs
    rw [if_neg UInt32.not_lt_zero] at hs
    cases hs
    obtain ⟨hne, hown, hn⟩ := hheld
    exact h.goto hc rfl rfl rfl (Or.inr hown)
      (by simpa [Holding, State.goto, hne] using ⟨hn, hown⟩) (fun h => h.elim)
  | unlockCheck =>
    simp only [hpc] at hheld hs
    obtain ⟨hn, hnull, hown⟩ := hheld
    split at hs
    next hz =>
      cases hs
      have hone : s.depth c = 1 := by
        rw [← hn, hz]
        rfl
      exact h.goto hc rfl rfl rfl (Or.inl (hnull hz))
        (by simpa [Holding, State.goto] using ⟨hz, hone, hnull hz⟩) (fun h => h.elim)
    next hz =>
      cases hs
      have hpos : 0 < s._counter.toNat := Nat.pos_of_ne_zero fun h => hz (UInt32.toNat_inj.mp h)
      exact h.answer _ hc rfl rfl rfl (hown hz) (by omega) (by omega)
  | unlockPthread =>
    simp only [hpc, Option.some.injEq] at hheld hs
    subst hs
    obtain ⟨hz, hone, hnull⟩ := hheld
    have hfree : pthread_mutex_unlock s._pmutex c = ⟨none, 0⟩ := by
      rw [pthread_mutex_unlock, if_pos hc, if_pos hcount]
    rw [hfree, hone]
    exact h.release _ hc hz hnull

/-- A call begins, which only its own thread can see. -/
theorem Guarded.call {pc : Pc} (h : Guarded id s) (hidle : s.pc c = .idle)
    (hpc : pc = .unlockTest ∨ (∃ tries, pc = .lockTest tries) ∧ s.depth c + 1 < 2 ^ 32) : Guarded id (s.goto c pc) := by
  have hothers : ∀ c', c' ≠ c → (s.goto c pc).pc c' = s.pc c' := fun c' hne => Function.update_of_ne hne _ _
  by_cases hc : s._pmutex.holder = some c
  · have hheld := (h.held c hc).1
    simp only [Holding, hidle] at hheld
    refine h.inside hc rfl hothers (fun _ _ => rfl) (Or.inr hheld.2.1) ?_ ?_
    · simp only [Holding, State.goto, Function.update_self]
      rcases hpc with rfl | ⟨⟨tries, rfl⟩, -⟩
      · exact hheld
      · exact hheld
    · simp only [State.goto, Function.update_self]
      rcases hpc with rfl | ⟨-, hroom⟩
      · exact fun hl => hl.elim
      · exact fun _ => hroom
  · refine h.apart hc rfl rfl rfl hothers (fun _ => rfl) ?_
    simp only [State.goto, Function.update_self]
    rcases hpc with rfl | ⟨⟨tries, rfl⟩, -⟩
    · trivial
    · trivial

theorem Guarded.step {a : Event Thread} (hid : Function.Injective id) (hnull : ∀ c, id c ≠ NULL_THREAD)
    (h : Guarded id s) (hok : Shallow s a) (hs : step id s a = some s') : Guarded id s' := by
  cases a with
  | lock c | tryLock c =>
    simp only [Mutex.step] at hs
    split at hs
    next hidle => cases hs; exact h.call hidle (Or.inr ⟨⟨_, rfl⟩, hok⟩)
    next => cases hs
  | unlock c =>
    simp only [Mutex.step] at hs
    split at hs
    next hidle => cases hs; exact h.call hidle (Or.inl rfl)
    next => cases hs
  | thread c =>
    by_cases hc : s._pmutex.holder = some c
    · exact h.holderStep hc hs
    · exact h.outsideStep hid hnull hc hs

/-- What callers may rely on: one thread inside, with owner and counter that say so, and no unlock by the others. -/
structure Exclusive (id : Thread → THREAD_ID) (s : State Thread) : Prop where
  one : ∀ c c', 0 < s.depth c → 0 < s.depth c' → c = c'
  owned : ∀ c, s.pc c = .idle → 0 < s.depth c → s._thread_id = id c ∧ s._counter.toNat = s.depth c
  free : (∀ c, s.pc c = .idle ∧ s.depth c = 0) → s._pmutex.holder = none ∧ s._counter = 0
  refused : ∀ c, s.pc c = .unlockTest → s.depth c = 0 → threadStep id s c = some
    (s.answer c (s.depth c) (.MutexException "Trying to unlock a mutex the thread does not own!"))

theorem Guarded.exclusive (hid : Function.Injective id) (hnull : ∀ c, id c ≠ NULL_THREAD) (h : Guarded id s) :
    Exclusive id s := by
  have hholder : ∀ c, 0 < s.depth c → s._pmutex.holder = some c := by
    intro c hpos
    apply Classical.byContradiction
    intro hc
    exact Nat.ne_of_gt hpos (h.outside c hc).1
  refine ⟨?_, ?_, ?_, ?_⟩
  · intro c c' hc hc'
    have heq := (hholder c hc).symm.trans (hholder c' hc')
    exact Option.some.inj heq
  · intro c hidle hpos
    have hheld := (h.held c (hholder c hpos)).1
    simp only [Holding, hidle] at hheld
    exact hheld.2
  · intro hall
    have hnone : s._pmutex.holder = none := by
      cases hh : s._pmutex.holder with
      | none => rfl
      | some c =>
        have hheld := (h.held c hh).1
        obtain ⟨hidle, hzero⟩ := hall c
        simp only [Holding, hidle] at hheld
        omega
    exact ⟨hnone, (h.free hnone).2⟩
  · intro c hpc hzero
    have hc : s._pmutex.holder ≠ some c := by
      intro hc
      have hheld := (h.held c hc).1
      simp only [Holding, hpc] at hheld
      omega
    simp only [threadStep, hpc, if_pos (not_own hid hnull h hc)]

variable {as : List (Event Thread)}

end Steps

/-- The ids of two threads. -/
def pairId : Bool → THREAD_ID
  | true => 1
  | false => 2

/-- One thread has taken the mutex `n` times. -/
def nested (n : Nat) : State Unit :=
  ⟨true, 1, UInt32.ofNat n, ⟨some (), 1⟩, fun _ => .idle, fun _ => n, fun _ => some (.locked true)⟩

def sole : Unit → THREAD_ID := fun _ => 1

def again : List (Event Unit) := .lock () :: List.replicate 4 (.thread ())

theorem update_sole {α : Type} (f : Unit → α) (x : α) : Function.update f () x = fun _ => x := by
  funext c
  rfl

theorem run_first : run (step sole) init (.lock () :: List.replicate 6 (.thread ())) = some (nested 1) := by
  simp [run, step, threadStep, nested, init, sole, pthread_mutex_lock, State.goto, State.answer,
    update_sole, NULL_THREAD, List.replicate]

theorem run_again (n : Nat) : run (step sole) (nested n) again = some (nested (n + 1)) := by
  simp [run, step, threadStep, nested, sole, again, State.goto, State.answer,
    update_sole, UInt32.ofNat_add, List.replicate]

theorem run_nested (n : Nat) :
    run (step sole) init (.lock () :: List.replicate 6 (.thread ()) ++ (List.replicate n again).flatten) =
      some (nested (n + 1)) := by
  rw [run_append, run_first, Option.bind_some]
  suffices h : ∀ m, run (step sole) (nested (m + 1)) (List.replicate n again).flatten = some (nested (m + 1 + n)) by
    rw [h 0, Nat.zero_add, Nat.add_comm]
  induction n with
  | zero => exact fun m => rfl
  | succ n ih =>
    intro m
    rw [List.replicate_succ, List.flatten_cons, run_append, run_again, Option.bind_some, ih (m + 1)]
    congr 2
    omega

end Srl.Mutex
