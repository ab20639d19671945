import Mathlib.Data.Int.Interval
import Mathlib.Logic.Function.Basic
import Srl.Transition

namespace Srl.Radmin

open Transition

def START_FTP_PORT : Int := 30000

def STOP_FTP_PORT : Int := 49000

namespace FtpPort

/-- The next step of a thread in `getNextFtpPort`; `read` is the one that fetches the value to return. -/
inductive Pc
  | idle
  | lock
  | increment
  | unlock
  | read
deriving DecidableEq

/-- `calls` counts the calls made so far, `returned` has what they returned, the last one first. -/
structure State (Thread : Type) where
  _ftp_port : Int
  _ftp_critsec : Option Thread
  pc : Thread → Pc
  calls : Nat
  returned : List Int

inductive Event (Thread : Type)
  | getNextFtpPort (c : Thread)
  | thread (c : Thread)

variable {Thread : Type}

def init : State Thread := ⟨START_FTP_PORT - 1, none, fun _ => .idle, 0, []⟩

section Steps

variable [DecidableEq Thread] (s : State Thread)

def State.goto (c : Thread) (pc : Pc) : State Thread := { s with pc := Function.update s.pc c pc }

def threadStep (c : Thread) : Option (State Thread) :=
  match s.pc c with
  | .idle => none
  | .lock => if s._ftp_critsec = none then some ({ s with _ftp_critsec := some c }.goto c .increment) else none
  | .increment => some ({ s with _ftp_port := s._ftp_port + 1 }.goto c .unlock)
  | .unlock => some ({ s with _ftp_critsec := none }.goto c .read)
  | .read => some ({ s with returned := s._ftp_port :: s.returned }.goto c .idle)

def step : Event Thread → Option (State Thread)
  | .getNextFtpPort c => if s.pc c = .idle then some ({ s with calls := s.calls + 1 }.goto c .lock) else none
  | .thread c => threadStep s c

end Steps

/-- Nobody increments while another thread has still to read what it returns. -/
def Unread (s : State Thread) : Event Thread → Prop
  | .getNextFtpPort _ => True
  | .thread c => s.pc c = .increment → ∀ c', s.pc c' ≠ .read

/-- The steps of a thread that has incremented the port and has not yet read it. -/
def Pc.Owes : Pc → Prop
  | .unlock | .read => True
  | _ => False

/-- The steps of a thread that is still to increment the port. -/
def Pc.Before : Pc → Prop
  | .lock | .increment => True
  | _ => False

/-- The steps that are made under the lock. -/
def Pc.Inside : Pc → Prop
  | .increment | .unlock => True
  | _ => False

/-- The ports stay in their range, whatever the threads do to each other. -/
structure InRange (s : State Thread) : Prop where
  low : START_FTP_PORT - 1 ≤ s._ftp_port
  incremented : ∀ c, (s.pc c).Owes → START_FTP_PORT ≤ s._ftp_port
  range : ∀ p ∈ s.returned, START_FTP_PORT ≤ p ∧ p ≤ s._ftp_port

structure Allocated (s : State Thread) : Prop where
  ranged : InRange s
  held : ∀ c, (s.pc c).Inside → s._ftp_critsec = some c
  one : ∀ c c', (s.pc c).Owes → (s.pc c').Owes → c = c'
  nodup : s.returned.Nodup
  fresh : ∀ c, (s.pc c).Owes → ∀ p ∈ s.returned, p < s._ftp_port

/-- Every call increments at most once: `cs` has the threads whose calls have not done so. -/
def Counted (s : State Thread) : Prop :=
  ∃ cs : List Thread, (∀ c, (s.pc c).Before → c ∈ cs) ∧ s._ftp_port + cs.length ≤ START_FTP_PORT - 1 + s.calls

/-- Every increment is a port that is returned or one of the threads `cs` that have still to read. -/
def Balanced (s : State Thread) : Prop :=
  ∃ cs : List Thread, cs.Nodup ∧ (∀ c, c ∈ cs ↔ (s.pc c).Owes) ∧
    s._ftp_port = START_FTP_PORT - 1 + s.returned.length + cs.length

/-- A port that no thread has got, and that none will get any more. -/
def Missed (s : State Thread) : Prop := ∃ p, START_FTP_PORT ≤ p ∧ p < s._ftp_port ∧ p ∉ s.returned

theorem balanced_init : Balanced (init : State Thread) := by
  refine ⟨[], List.nodup_nil, fun c => ⟨fun hc => absurd hc List.not_mem_nil, fun h => h.elim⟩, ?_⟩
  simp [init]

theorem counted_init : Counted (init : State Thread) := by
  refine ⟨[], fun c h => h.elim, ?_⟩
  simp [init]

theorem inRange_init : InRange (init : State Thread) where
  low := Int.le_refl _
  incremented _ h := h.elim
  range p hp := by simp [init] at hp

theorem allocated_init : Allocated (init : State Thread) where
  ranged := inRange_init
  held _ h := h.elim
  one _ _ h := h.elim
  nodup := List.nodup_nil
  fresh _ h := h.elim

variable {s s' : State Thread} {e : Event Thread}

/-- Fewer numbers than a range has leave one of it out. -/
theorem exists_not_mem {a b : Int} {l : List Int} (hlen : l.length < b - a + 1) : ∃ p, a ≤ p ∧ p ≤ b ∧ p ∉ l := by
  by_contra hall
  have hsub : Finset.Icc a b ⊆ l.toFinset := fun p hp => by
    obtain ⟨hlow, hhigh⟩ := Finset.mem_Icc.mp hp
    by_contra hno
    exact hall ⟨p, hlow, hhigh, fun hmem => hno (List.mem_toFinset.mpr hmem)⟩
  have hcard := (Finset.card_le_card hsub).trans (List.toFinset_card_le l)
  rw [Int.card_Icc] at hcard
  omega

/-- When all calls have returned, and a port was left out, another one was handed out twice. -/
theorem not_nodup_of_missed (hrange : InRange s) (hbalanced : Balanced s) (hidle : ∀ c, s.pc c = .idle)
    (h : Missed s) : ¬s.returned.Nodup := by
  intro hnodup
  obtain ⟨p, hlow, hlt, hp⟩ := h
  obtain ⟨cs, -, hcs, hport⟩ := hbalanced
  have hnil : cs = [] := List.eq_nil_iff_forall_not_mem.mpr fun c hc => by
    have howes := (hcs c).mp hc
    rw [hidle] at howes
    exact howes
  have hsub : s.returned.toFinset ⊂ Finset.Icc START_FTP_PORT s._ftp_port := by
    refine Finset.ssubset_iff_of_subset (fun q hq => ?_) |>.mpr ⟨p, Finset.mem_Icc.mpr ⟨hlow, hlt.le⟩, ?_⟩
    · exact Finset.mem_Icc.mpr (hrange.range q (List.mem_toFinset.mp hq))
    · exact fun hmem => hp (List.mem_toFinset.mp hmem)
  have hcard := Finset.card_lt_card hsub
  rw [List.toFinset_card_of_nodup hnodup, Int.card_Icc] at hcard
  rw [hnil, List.length_nil] at hport
  omega

variable [DecidableEq Thread]

@[simp] theorem pc_goto (c c' : Thread) (pc : Pc) : (s.goto c pc).pc c' = if c' = c then pc else s.pc c' :=
  Function.update_apply s.pc c pc c'

theorem threadStep_cases {c : Thread} (h : threadStep s c = some s') :
    (s.pc c = .lock ∧ s._ftp_critsec = none ∧ s' = { s with _ftp_critsec := some c }.goto c .increment) ∨
      (s.pc c = .increment ∧ s' = { s with _ftp_port := s._ftp_port + 1 }.goto c .unlock) ∨
      (s.pc c = .unlock ∧ s' = { s with _ftp_critsec := none }.goto c .read) ∨
      (s.pc c = .read ∧ s' = { s with returned := s._ftp_port :: s.returned }.goto c .idle) := by
  unfold threadStep at h
  split at h
  next => cases h
  next hpc =>
    split at h
    next hfree => exact .inl ⟨hpc, hfree, (Option.some.inj h).symm⟩
    next => cases h
  next hpc => exact .inr (.inl ⟨hpc, (Option.some.inj h).symm⟩)
  next hpc => exact .inr (.inr (.inl ⟨hpc, (Option.some.inj h).symm⟩))
  next hpc => exact .inr (.inr (.inr ⟨hpc, (Option.some.inj h).symm⟩))

theorem call_cases {c : Thread} (h : step s (.getNextFtpPort c) = some s') :
    s.pc c = .idle ∧ s' = { s with calls := s.calls + 1 }.goto c .lock := by
  simp only [step] at h
  split at h
  next hidle => exact ⟨hidle, (Option.some.inj h).symm⟩
  next => cases h

theorem Counted.step (h : Counted s) (hstep : step s e = some s') : Counted s' := by
  obtain ⟨cs, hcs, hle⟩ := h
  cases e with
  | getNextFtpPort c =>
    obtain ⟨-, rfl⟩ := call_cases hstep
    refine ⟨c :: cs, fun c' h' => ?_, ?_⟩
    · by_cases heq : c' = c
      · exact List.mem_cons.mpr (.inl heq)
      · exact List.mem_cons_of_mem c (hcs c' (by simpa [heq] using h'))
    · simp only [State.goto, List.length_cons]
      omega
  | thread c =>
    obtain ⟨hpc, -, rfl⟩ | ⟨hpc, rfl⟩ | ⟨hpc, rfl⟩ | ⟨hpc, rfl⟩ := threadStep_cases hstep
    · refine ⟨cs, fun c' h' => ?_, hle⟩
      by_cases heq : c' = c
      · exact hcs c' (by rw [heq, hpc]; trivial)
      · exact hcs c' (by simpa [heq] using h')
    · have hc : c ∈ cs := hcs c (by rw [hpc]; trivial)
      refine ⟨cs.erase c, fun c' h' => ?_, ?_⟩
      · by_cases heq : c' = c
        · simp [heq, Pc.Before] at h'
        · exact (List.mem_erase_of_ne heq).mpr (hcs c' (by simpa [heq] using h'))
      · have hpos := List.length_pos_of_mem hc
        simp only [State.goto, List.length_erase_of_mem hc]
        omega
    · refine ⟨cs, fun c' h' => ?_, hle⟩
      by_cases heq : c' = c
      · simp [heq, Pc.Before] at h'
      · exact hcs c' (by simpa [heq] using h')
    · refine ⟨cs, fun c' h' => ?_, hle⟩
      by_cases heq : c' = c
      · simp [heq, Pc.Before] at h'
      · exact hcs c' (by simpa [heq] using h')

/-- A thread that goes to another step owes nothing new. -/
theorem owes_goto {c c' : Thread} {pc : Pc} (howes : pc.Owes → (s.pc c).Owes) (h : ((s.goto c pc).pc c').Owes) :
    (s.pc c').Owes := by
  by_cases heq : c' = c
  · rw [heq] at h ⊢
    exact howes (by simpa using h)
  · simpa [heq] using h

theorem InRange.goto {c : Thread} {pc : Pc} (h : InRange s) (howes : pc.Owes → (s.pc c).Owes) :
    InRange (s.goto c pc) :=
  ⟨h.low, fun c' h' => h.incremented c' (owes_goto howes h'), h.range⟩

theorem InRange.increment {c : Thread} (h : InRange s) :
    InRange ({ s with _ftp_port := s._ftp_port + 1 }.goto c .unlock) := by
  refine ⟨Int.le_trans h.low (Int.le_add_one (Int.le_refl _)), fun _ _ => Int.le_add_of_sub_right_le h.low,
    fun p hp => ?_⟩
  obtain ⟨hlow, hhigh⟩ := h.range p hp
  exact ⟨hlow, Int.le_add_one hhigh⟩

theorem InRange.read {c : Thread} (h : InRange s) (hpc : s.pc c = .read) :
    InRange ({ s with returned := s._ftp_port :: s.returned }.goto c .idle) := by
  have hstart := h.incremented c (by rw [hpc]; trivial)
  have hread : InRange { s with returned := s._ftp_port :: s.returned } := by
    refine ⟨h.low, h.incremented, fun p hp => ?_⟩
    obtain rfl | hp := List.mem_cons.mp hp
    · exact ⟨hstart, Int.le_refl _⟩
    · exact h.range p hp
  exact hread.goto fun h' => h'.elim

theorem InRange.step (h : InRange s) (hstep : FtpPort.step s e = some s') : InRange s' := by
  cases e with
  | getNextFtpPort c =>
    obtain ⟨-, rfl⟩ := call_cases hstep
    have hcalled : InRange { s with calls := s.calls + 1 } := ⟨h.low, h.incremented, h.range⟩
    exact hcalled.goto fun h' => h'.elim
  | thread c =>
    obtain ⟨-, -, rfl⟩ | ⟨-, rfl⟩ | ⟨hpc, rfl⟩ | ⟨hpc, rfl⟩ := threadStep_cases hstep
    · have hlocked : InRange { s with _ftp_critsec := some c } := ⟨h.low, h.incremented, h.range⟩
      exact hlocked.goto fun h' => h'.elim
    · exact h.increment
    · have hunlocked : InRange { s with _ftp_critsec := none } := ⟨h.low, h.incremented, h.range⟩
      exact hunlocked.goto fun _ => by rw [hpc]; trivial
    · exact h.read hpc

theorem Allocated.goto {c : Thread} {pc : Pc} (h : Allocated s) (hin : pc.Inside → s._ftp_critsec = some c)
    (howes : pc.Owes → (s.pc c).Owes) : Allocated (s.goto c pc) := by
  refine ⟨h.ranged.goto howes, fun c' h' => ?_,
    fun c₁ c₂ h₁ h₂ => h.one c₁ c₂ (owes_goto howes h₁) (owes_goto howes h₂), h.nodup,
    fun c' h' => h.fresh c' (owes_goto howes h')⟩
  by_cases heq : c' = c
  · rw [heq] at h' ⊢
    exact hin (by simpa using h')
  · exact h.held c' (by simpa [heq] using h')

theorem Allocated.increment {c : Thread} (h : Allocated s) (hpc : s.pc c = .increment)
    (hread : ∀ c', s.pc c' ≠ .read) : Allocated ({ s with _ftp_port := s._ftp_port + 1 }.goto c .unlock) := by
  have hheld := h.held c (by rw [hpc]; trivial)
  have honly : ∀ c', (({ s with _ftp_port := s._ftp_port + 1 }.goto c .unlock).pc c').Owes → c' = c := by
    intro c' h'
    by_contra hne
    simp only [pc_goto, hne, if_false] at h'
    cases hpc' : s.pc c' with
    | read => exact hread c' hpc'
    | unlock =>
      have hheld' := h.held c' (by rw [hpc']; trivial)
      rw [hheld] at hheld'
      exact hne (Option.some.inj hheld').symm
    | idle | lock | increment =>
      rw [hpc'] at h'
      exact h'
  refine ⟨h.ranged.increment, fun c' h' => ?_, fun c₁ c₂ h₁ h₂ => (honly c₁ h₁).trans (honly c₂ h₂).symm, h.nodup,
    fun c' h' p hp => Int.lt_add_one_of_le (h.ranged.range p hp).2⟩
  by_cases heq : c' = c
  · rw [heq]
    exact hheld
  · exact h.held c' (by simpa [heq] using h')

theorem Allocated.read {c : Thread} (h : Allocated s) (hpc : s.pc c = .read) :
    Allocated ({ s with returned := s._ftp_port :: s.returned }.goto c .idle) := by
  have howes : (s.pc c).Owes := by
    rw [hpc]
    trivial
  have hnone : ∀ c', ¬(({ s with returned := s._ftp_port :: s.returned }.goto c .idle).pc c').Owes := by
    intro c' h'
    by_cases heq : c' = c
    · simp [heq, Pc.Owes] at h'
    · exact heq (h.one c' c (by simpa [heq] using h') howes)
  refine ⟨h.ranged.read hpc, fun c' h' => ?_, fun c₁ _ h₁ => absurd h₁ (hnone c₁), ?_,
    fun c' h' => absurd h' (hnone c')⟩
  · by_cases heq : c' = c
    · simp [heq, Pc.Inside] at h'
    · exact h.held c' (by simpa [heq] using h')
  · exact List.nodup_cons.mpr ⟨fun hmem => Int.lt_irrefl _ (h.fresh c howes _ hmem), h.nodup⟩

theorem Allocated.step (h : Allocated s) (hok : Unread s e) (hstep : FtpPort.step s e = some s') : Allocated s' := by
  cases e with
  | getNextFtpPort c =>
    obtain ⟨-, rfl⟩ := call_cases hstep
    have hcalled : Allocated { s with calls := s.calls + 1 } :=
      ⟨⟨h.ranged.low, h.ranged.incremented, h.ranged.range⟩, h.held, h.one, h.nodup, h.fresh⟩
    exact hcalled.goto (fun h' => h'.elim) fun h' => h'.elim
  | thread c =>
    obtain ⟨hpc, hfree, rfl⟩ | ⟨hpc, rfl⟩ | ⟨hpc, rfl⟩ | ⟨hpc, rfl⟩ := threadStep_cases hstep
    · have hlocked : Allocated { s with _ftp_critsec := some c } := by
        refine ⟨⟨h.ranged.low, h.ranged.incremented, h.ranged.range⟩, fun c' h' => ?_, h.one, h.nodup, h.fresh⟩
        have hheld := h.held c' h'
        rw [hfree] at hheld
        cases hheld
      exact hlocked.goto (fun _ => rfl) fun h' => h'.elim
    · exact h.increment hpc (hok hpc)
    · have hheld := h.held c (by rw [hpc]; trivial)
      have hmoved : Allocated (s.goto c .read) := h.goto (fun h' => h'.elim) fun _ => by rw [hpc]; trivial
      refine ⟨⟨h.ranged.low, hmoved.ranged.incremented, h.ranged.range⟩, fun c' h' => ?_, hmoved.one, h.nodup,
        hmoved.fresh⟩
      exfalso
      by_cases heq : c' = c
      · simp [heq, Pc.Inside] at h'
      · have hheld' := h.held c' (by simpa [heq] using h')
        rw [hheld] at hheld'
        exact heq (Option.some.inj hheld').symm
    · exact h.read hpc

/-- Whatever the threads do, no port is outside of the range, as long as there are no more calls than ports. -/
theorem ports_in_range {es : List (Event Thread)} (hrun : run step init es = some s)
    (hcalls : s.calls ≤ STOP_FTP_PORT - START_FTP_PORT) :
    ∀ p ∈ s.returned, START_FTP_PORT ≤ p ∧ p < STOP_FTP_PORT := by
  have hrange := run_invariant (fun s e s' h hs => InRange.step h hs) inRange_init hrun
  obtain ⟨cs, -, hle⟩ := run_invariant (fun s e s' h hs => Counted.step h hs) counted_init hrun
  refine fun p hp => ⟨(hrange.range p hp).1, ?_⟩
  have hport := (hrange.range p hp).2
  simp only [START_FTP_PORT, STOP_FTP_PORT] at hcalls hle hport ⊢
  omega

/-- As long as nobody increments before another thread has read its port, no port is handed out twice. -/
theorem ports_distinct {es : List (Event Thread)} (hrun : run step init es = some s)
    (hok : Along step Unread init es) (hcalls : s.calls ≤ STOP_FTP_PORT - START_FTP_PORT) :
    s.returned.Nodup ∧ ∀ p ∈ s.returned, START_FTP_PORT ≤ p ∧ p < STOP_FTP_PORT := by
  have halloc := along_invariant (fun s e s' h hok hs => Allocated.step h hok hs) allocated_init hok hrun
  exact ⟨halloc.nodup, ports_in_range hrun hcalls⟩

theorem Balanced.goto {c : Thread} {pc : Pc} (h : Balanced s) (howes : pc.Owes ↔ (s.pc c).Owes) :
    Balanced (s.goto c pc) := by
  obtain ⟨cs, hnodup, hcs, hport⟩ := h
  refine ⟨cs, hnodup, fun c' => ?_, hport⟩
  by_cases heq : c' = c
  · rw [hcs, heq, pc_goto, if_pos rfl, howes]
  · rw [hcs, pc_goto, if_neg heq]

theorem Balanced.step (h : Balanced s) (hstep : FtpPort.step s e = some s') : Balanced s' := by
  cases e with
  | getNextFtpPort c =>
    obtain ⟨hpc, rfl⟩ := call_cases hstep
    have hcalled : Balanced { s with calls := s.calls + 1 } := h
    exact hcalled.goto (by rw [hpc]; exact Iff.rfl)
  | thread c =>
    obtain ⟨hpc, -, rfl⟩ | ⟨hpc, rfl⟩ | ⟨hpc, rfl⟩ | ⟨hpc, rfl⟩ := threadStep_cases hstep
    · have hlocked : Balanced { s with _ftp_critsec := some c } := h
      exact hlocked.goto (by rw [hpc]; exact Iff.rfl)
    · obtain ⟨cs, hnodup, hcs, hport⟩ := h
      have hc : c ∉ cs := by
        rw [hcs, hpc]
        exact id
      refine ⟨c :: cs, List.nodup_cons.mpr ⟨hc, hnodup⟩, fun c' => ?_, ?_⟩
      · by_cases heq : c' = c
        · simp [heq, Pc.Owes]
        · simp [heq, hcs]
      · simp only [State.goto, List.length_cons, hport]
        omega
    · have hunlocked : Balanced { s with _ftp_critsec := none } := h
      exact hunlocked.goto (by rw [hpc]; exact Iff.rfl)
    · obtain ⟨cs, hnodup, hcs, hport⟩ := h
      have hc : c ∈ cs := by
        rw [hcs, hpc]
        trivial
      have hpos := List.length_pos_of_mem hc
      refine ⟨cs.erase c, hnodup.erase c, fun c' => ?_, ?_⟩
      · rw [hnodup.mem_erase_iff]
        by_cases heq : c' = c
        · simp [heq, Pc.Owes]
        · simp [heq, hcs]
      · simp only [State.goto, List.length_cons, List.length_erase_of_mem hc, hport]
        omega

theorem Missed.step (h : Missed s) (hstep : FtpPort.step s e = some s') : Missed s' := by
  obtain ⟨p, hstart, hlt, hp⟩ := h
  cases e with
  | getNextFtpPort c =>
    obtain ⟨-, rfl⟩ := call_cases hstep
    exact ⟨p, hstart, hlt, hp⟩
  | thread c =>
    obtain ⟨-, -, rfl⟩ | ⟨-, rfl⟩ | ⟨-, rfl⟩ | ⟨-, rfl⟩ := threadStep_cases hstep
    · exact ⟨p, hstart, hlt, hp⟩
    · exact ⟨p, hstart, Int.lt_add_one_of_le hlt.le, hp⟩
    · exact ⟨p, hstart, hlt, hp⟩
    · exact ⟨p, hstart, hlt, List.not_mem_cons_of_ne_of_not_mem hlt.ne hp⟩

/-- A thread that increments before another one has read leaves a port out. -/
theorem missed_of_overlap (h : Balanced s) (hok : ¬Unread s e) (hstep : FtpPort.step s e = some s') : Missed s' := by
  cases e with
  | getNextFtpPort c => exact absurd trivial hok
  | thread c =>
    obtain ⟨hpc, hread⟩ := Classical.not_imp.mp hok
    obtain ⟨c', hc'⟩ := not_forall.mp hread
    have hs' : s' = { s with _ftp_port := s._ftp_port + 1 }.goto c .unlock := by
      rw [FtpPort.step, threadStep, hpc] at hstep
      exact (Option.some.inj hstep).symm
    obtain ⟨cs, -, hcs, hport⟩ := h
    have hmem : c' ∈ cs := by
      rw [hcs, not_not.mp hc']
      trivial
    have hpos := List.length_pos_of_mem hmem
    obtain ⟨p, hlow, hhigh, hp⟩ := exists_not_mem (l := s.returned) (by omega : _ < s._ftp_port - START_FTP_PORT + 1)
    rw [hs']
    exact ⟨p, hlow, Int.lt_add_one_of_le hhigh, hp⟩

/-- In a run that has returned from all its calls the ports are distinct exactly if no two calls overlapped so. -/
theorem nodup_iff_along {es : List (Event Thread)} (hrun : run step init es = some s) (hidle : ∀ c, s.pc c = .idle) :
    s.returned.Nodup ↔ Along step Unread init es := by
  constructor
  · intro hnodup
    by_contra hoverlap
    have hrange := run_invariant (fun s e s' h hs => InRange.step h hs) inRange_init hrun
    have hbalanced := run_invariant (fun s e s' h hs => Balanced.step h hs) balanced_init hrun
    have hmissed : Missed s := of_not_along (fun s e s' h hs => Balanced.step h hs)
      (fun s e s' h hs => Missed.step h hs) (fun s e s' h hok hs => missed_of_overlap h hok hs)
      balanced_init hrun hoverlap
    exact not_nodup_of_missed hrange hbalanced hidle hmissed hnodup
  · intro hok
    exact (along_invariant (fun s e s' h hok hs => Allocated.step h hok hs) allocated_init hok hrun).nodup

/-- Two calls of one thread. -/
def inTurn : List (Event Unit) :=
  .getNextFtpPort () :: List.replicate 4 (.thread ()) ++ .getNextFtpPort () :: List.replicate 4 (.thread ())

theorem ports_distinct_in_turn :
    (run step init inTurn).map State.returned = some [30001, 30000] ∧
      ∃ s, run step init inTurn = some s ∧ s.returned.Nodup ∧
        ∀ p ∈ s.returned, START_FTP_PORT ≤ p ∧ p < STOP_FTP_PORT := by
  have hok : Along step Unread init inTurn := by
    refine along_of_forall fun s e => ?_
    cases e with
    | getNextFtpPort => trivial
    | thread c =>
      intro hpc c' hread
      cases hpc.symm.trans hread
  exact ⟨rfl, _, rfl, ports_distinct rfl hok (by decide)⟩

/-- Two threads increment before either has read its port. -/
def overlapping : List (Event Bool) :=
  [.getNextFtpPort true, .getNextFtpPort false, .thread true, .thread true, .thread true, .thread false,
    .thread false, .thread false, .thread true, .thread false]

theorem not_ports_distinct :
    ¬∀ (es : List (Event Bool)) (s : State Bool), run step init es = some s →
      s.calls ≤ STOP_FTP_PORT - START_FTP_PORT →
        s.returned.Nodup ∧ ∀ p ∈ s.returned, START_FTP_PORT ≤ p ∧ p < STOP_FTP_PORT := by
  intro h
  have hnodup : [(30001 : Int), 30001].Nodup := (h overlapping _ rfl (by decide)).1
  revert hnodup
  decide

end FtpPort

end Srl.Radmin
