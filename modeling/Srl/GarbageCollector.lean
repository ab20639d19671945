import Srl.VectorIteration

namespace Srl

open Session Srl.Vector

namespace Radmin

/-- What the collector has to free; `_critsec` says whether it holds its lock. -/
structure GarbageCollector (Monitor RadminFTP : Type) where
  _critsec : Bool
  _garbage : Vector (Option Monitor)
  _ftp_garbage : Vector (Option RadminFTP)

namespace GarbageCollector

variable {Monitor RadminFTP : Type}

abbrev Call (Monitor RadminFTP β : Type) := Method (GarbageCollector Monitor RadminFTP) Stop β

def lock : Call Monitor RadminFTP Unit := modify fun g => { g with _critsec := true }

def unlock : Call Monitor RadminFTP Unit := modify fun g => { g with _critsec := false }

def monitors {β : Type} (x : Vector.Call (Option Monitor) β) : Call Monitor RadminFTP β :=
  on GarbageCollector._garbage (fun v g => { g with _garbage := v }) x

def clients {β : Type} (x : Vector.Call (Option RadminFTP) β) : Call Monitor RadminFTP β :=
  on GarbageCollector._ftp_garbage (fun v g => { g with _ftp_garbage := v }) x

section

variable (fresh : Nat → Option RadminFTP) (isDone : RadminFTP → Bool)

/-- The entry at a position is erased when it is done. -/
def collect (pos : Nat) : Call Monitor RadminFTP Unit := do
  let client ← follow (← clients (Vector.get pos))
  if isDone client then clients (removeAt (resizePointers fresh) pos) else pure ()

/-- The loop of `run`, from the position of its iterator on. -/
def collectLoop : Nat → Nat → Call Monitor RadminFTP Unit
  | 0, _ => throw .unfinished
  | rounds + 1, pos => do
    if pos = (← get)._ftp_garbage.end_pos then pure ()
    else
      collect fresh isDone pos
      collectLoop rounds (forth pos)

/-- The part of `run` for the monitors. -/
def collectMonitors (freshMonitor : Nat → Option Monitor) : Call Monitor RadminFTP Unit := do
  if 0 < (← get)._garbage.size then
    lock
    monitors (clearPointers freshMonitor true)
    unlock
  else pure ()

/-- The part for the clients. Every round looks at another entry, so that their number is enough rounds. -/
def collectClients : Call Monitor RadminFTP Unit := do
  let g ← get
  if 0 < g._ftp_garbage.size then
    lock
    collectLoop fresh isDone (g._ftp_garbage.size + 1) 0
    unlock
  else pure ()

def run (freshMonitor : Nat → Option Monitor) : Call Monitor RadminFTP Bool := do
  collectMonitors freshMonitor
  collectClients fresh isDone
  pure true

end

/-- What the pass makes of the entries from its position on, and whether it gets to their end: the entry behind
one that is erased is passed over. -/
def sweep (isDone : RadminFTP → Bool) : List RadminFTP → List RadminFTP × Bool
  | [] => ([], true)
  | [a] => if isDone a then ([], false) else ([a], true)
  | a :: b :: l =>
    if isDone a then (b :: (sweep isDone l).1, (sweep isDone l).2)
    else (a :: (sweep isDone (b :: l)).1, (sweep isDone (b :: l)).2)

/-- Every entry that is done stands in front of one that is not. -/
def Apart (isDone : RadminFTP → Bool) (l : List RadminFTP) : Prop :=
  ∀ front a back, l = front ++ a :: back → isDone a = true → ∃ b, back.head? = some b ∧ isDone b = false

variable {g : GarbageCollector Monitor RadminFTP} {front l : List RadminFTP} {a b : RadminFTP} {rounds : Nat}

section

variable (fresh : Nat → Option RadminFTP) (isDone : RadminFTP → Bool)

/-- What a loop ends with that has got to the end, or has passed it. -/
def outcome (ended : Bool) : Except Stop Unit :=
  if ended then .ok ()
  else .error (.thrown (indexOutOfBounds "index is bigger then the size of the list (get)"))

theorem collectLoop_end (h : Points g._ftp_garbage front) (hrounds : 0 < rounds) :
    collectLoop fresh isDone rounds front.length g = (.ok (), g) := by
  obtain ⟨rounds, rfl⟩ := Nat.exists_eq_succ_of_ne_zero hrounds.ne'
  rw [collectLoop, get_bind, if_pos h.end_eq.symm]
  rfl

theorem clients_eq {β : Type} {x : Vector.Call (Option RadminFTP) β} {c : β} {v' : Vector (Option RadminFTP)}
    (h : x g._ftp_garbage = (.ok c, v')) : clients x g = (.ok c, { g with _ftp_garbage := v' }) := on_ok h

theorem collect_spec (h : Points g._ftp_garbage (front ++ a :: l)) :
    ∃ v', collect fresh isDone front.length g = (.ok (), { g with _ftp_garbage := v' }) ∧
      Points v' (front ++ if isDone a then l else a :: l) := by
  have hget : clients (Vector.get front.length) g = (.ok (some a), g) := clients_eq h.get_eq
  have hfollow : follow (some a) g = (.ok a, g) := rfl
  rw [collect, bind_ok hget, bind_ok hfollow]
  split
  next =>
    obtain ⟨v', hrun, hpoints⟩ := h.erase_spec fresh
    exact ⟨v', clients_eq hrun, hpoints⟩
  next => exact ⟨g._ftp_garbage, rfl, h⟩

/-- One round of the loop. -/
theorem collectLoop_round (rounds : Nat) (h : Points g._ftp_garbage (front ++ a :: l)) :
    ∃ v', collectLoop fresh isDone (rounds + 1) front.length g =
        collectLoop fresh isDone rounds (front.length + 1) { g with _ftp_garbage := v' } ∧
      Points v' (front ++ if isDone a then l else a :: l) := by
  have hlen : (front ++ a :: l).length = front.length + l.length + 1 := by
    rw [List.length_append, List.length_cons]
    omega
  have hfew := h.few
  obtain ⟨v', hrun, hpoints⟩ := collect_spec fresh isDone h
  refine ⟨v', ?_, hpoints⟩
  rw [collectLoop, get_bind, if_neg (by rw [h.end_eq]; omega), bind_ok hrun, forth, Nat.mod_eq_of_lt (by omega)]

/-- A round with an entry left at its position: the rest of the loop goes on behind that entry. -/
theorem collectLoop_next {l' : List RadminFTP} (rounds : Nat) (h : Points g._ftp_garbage (front ++ a :: l))
    (hleft : (if isDone a then l else a :: l) = b :: l') :
    ∃ v', collectLoop fresh isDone (rounds + 1) front.length g =
        collectLoop fresh isDone rounds (front ++ [b]).length { g with _ftp_garbage := v' } ∧
      Points v' (front ++ [b] ++ l') := by
  obtain ⟨v', hrun, hpoints⟩ := collectLoop_round fresh isDone rounds h
  rw [hleft, List.append_cons] at hpoints
  refine ⟨v', ?_, hpoints⟩
  rw [hrun, List.length_append, List.length_singleton]

/-- Behind the end of the entries the iterator does not stop, and its vector throws. -/
theorem collectLoop_passed (h : Points g._ftp_garbage front) (hrounds : 0 < rounds) :
    collectLoop fresh isDone rounds (front.length + 1) g = (outcome false, g) := by
  obtain ⟨rounds, rfl⟩ := Nat.exists_eq_succ_of_ne_zero hrounds.ne'
  have hget : clients (Vector.get (front.length + 1)) g =
      (.error (.thrown (indexOutOfBounds "index is bigger then the size of the list (get)")), g) :=
    on_error (h.get_throws (Nat.le_succ _))
  rw [collectLoop, get_bind, if_neg (by rw [h.end_eq]; omega)]
  exact bind_error (bind_error hget)

theorem collectLoop_spec (h : Points g._ftp_garbage (front ++ l)) (hrounds : l.length < rounds) :
    ∃ v', collectLoop fresh isDone rounds front.length g =
        (outcome (sweep isDone l).2, { g with _ftp_garbage := v' }) ∧
      Points v' (front ++ (sweep isDone l).1) := by
  obtain ⟨rounds, rfl⟩ := Nat.exists_eq_succ_of_ne_zero (Nat.ne_zero_of_lt hrounds)
  induction l using sweep.induct isDone generalizing front g rounds with
  | case1 =>
    rw [List.append_nil] at h
    refine ⟨g._ftp_garbage, ?_, by rw [sweep, List.append_nil]; exact h⟩
    rw [collectLoop_end fresh isDone h (Nat.succ_pos _)]
    rfl
  | case2 a hdone =>
    obtain ⟨v', hrun, hpoints⟩ := collectLoop_round fresh isDone rounds h
    rw [if_pos hdone, List.append_nil] at hpoints
    have hpassed := collectLoop_passed (g := { g with _ftp_garbage := v' }) fresh isDone hpoints
      (Nat.lt_of_succ_lt_succ hrounds)
    rw [sweep, if_pos hdone]
    exact ⟨v', hrun.trans hpassed, by rw [List.append_nil]; exact hpoints⟩
  | case3 a hdone =>
    obtain ⟨v', hrun, hpoints⟩ := collectLoop_next fresh isDone rounds h (if_neg hdone)
    rw [List.append_nil] at hpoints
    have hend := collectLoop_end (g := { g with _ftp_garbage := v' }) fresh isDone hpoints
      (Nat.lt_of_succ_lt_succ hrounds)
    rw [sweep, if_neg hdone]
    exact ⟨v', hrun.trans hend, hpoints⟩
  | case4 a b l hdone ih =>
    obtain ⟨v', hrun, hpoints⟩ := collectLoop_next fresh isDone rounds h (if_pos hdone)
    rw [List.length_cons, List.length_cons] at hrounds
    obtain ⟨rounds, rfl⟩ := Nat.exists_eq_succ_of_ne_zero (by omega : rounds ≠ 0)
    obtain ⟨v'', hrest, hpoints'⟩ := ih (g := { g with _ftp_garbage := v' }) hpoints rounds (by omega)
    rw [sweep, if_pos hdone]
    exact ⟨v'', hrun.trans hrest, by rw [List.append_cons]; exact hpoints'⟩
  | case5 a b l hdone ih =>
    obtain ⟨v', hrun, hpoints⟩ := collectLoop_next fresh isDone rounds h (if_neg hdone)
    rw [List.length_cons, List.length_cons] at hrounds
    obtain ⟨rounds, rfl⟩ := Nat.exists_eq_succ_of_ne_zero (by omega : rounds ≠ 0)
    obtain ⟨v'', hrest, hpoints'⟩ := ih (g := { g with _ftp_garbage := v' }) hpoints rounds
      (by rw [List.length_cons]; omega)
    rw [sweep, if_neg hdone]
    exact ⟨v'', hrun.trans hrest, by rw [List.append_cons]; exact hpoints'⟩

theorem collectMonitors_spec (freshMonitor : Nat → Option Monitor) {ms : List Monitor} (h : Points g._garbage ms)
    (hfree : g._critsec = false) :
    ∃ v', collectMonitors freshMonitor g = (.ok (), { g with _garbage := v' }) ∧ Points v' [] := by
  rw [collectMonitors, get_bind]
  split
  next =>
    obtain ⟨v', hrun, hholds, hinit⟩ := clearPointers_spec freshMonitor h.holds (by have := h.init_few; omega) true
    refine ⟨v', ?_, ⟨hholds, by simp, by rw [hinit]; exact h.init_few⟩⟩
    have hclear : monitors (clearPointers freshMonitor true) { g with _critsec := true } =
        (.ok (), { g with _critsec := true, _garbage := v' }) := on_ok hrun
    rw [lock, modify_bind, bind_ok hclear, unlock]
    exact congrArg (fun c => (_, { g with _critsec := c, _garbage := v' })) hfree.symm
  next hsize =>
    refine ⟨g._garbage, rfl, ?_⟩
    have hms : ms = [] := by
      rw [h.size_eq, Nat.not_lt, Nat.le_zero, List.length_eq_zero_iff] at hsize
      exact hsize
    rw [← hms]
    exact h

theorem collectClients_spec (h : Points g._ftp_garbage l) (hfree : g._critsec = false) :
    ∃ v', collectClients fresh isDone g = (outcome (sweep isDone l).2,
        { g with _ftp_garbage := v', _critsec := !(sweep isDone l).2 }) ∧ Points v' (sweep isDone l).1 := by
  rw [collectClients, get_bind, h.size_eq]
  split
  next =>
    have hlocked : Points { g with _critsec := true }._ftp_garbage ([] ++ l) := h
    obtain ⟨v', hrun, hpoints⟩ := collectLoop_spec fresh isDone hlocked (Nat.lt_succ_self l.length)
    refine ⟨v', ?_, hpoints⟩
    rw [List.length_nil] at hrun
    rw [lock, modify_bind]
    cases hended : (sweep isDone l).2 with
    | true =>
      rw [hended] at hrun
      rw [bind_ok hrun]
      rfl
    | false =>
      rw [hended] at hrun
      rw [bind_error hrun]
      rfl
  next hsize =>
    have hl : l = [] := List.length_eq_zero_iff.mp (Nat.le_zero.mp (Nat.not_lt.mp hsize))
    subst hl
    exact ⟨g._ftp_garbage, by rw [sweep, Bool.not_true, ← hfree]; rfl, h⟩

/-- What a pass leaves of the entries; the lock is given back just when it gets to their end. -/
theorem run_spec (freshMonitor : Nat → Option Monitor) {ms : List Monitor} (hms : Points g._garbage ms)
    (h : Points g._ftp_garbage l) (hfree : g._critsec = false) :
    ∃ g', run fresh isDone freshMonitor g = ((outcome (sweep isDone l).2).map fun _ => true, g') ∧
      Points g'._garbage [] ∧ Points g'._ftp_garbage (sweep isDone l).1 ∧ g'._critsec = !(sweep isDone l).2 := by
  obtain ⟨v, hmonitors, hempty⟩ := collectMonitors_spec freshMonitor hms hfree
  obtain ⟨v', hclients, hpoints⟩ := collectClients_spec (g := { g with _garbage := v }) fresh isDone h hfree
  refine ⟨{ g with _garbage := v, _ftp_garbage := v', _critsec := !(sweep isDone l).2 }, ?_, hempty, hpoints, rfl⟩
  rw [run, bind_ok hmonitors]
  cases hended : (sweep isDone l).2 with
  | true =>
    rw [hended] at hclients
    rw [bind_ok hclients]
    rfl
  | false =>
    rw [hended] at hclients
    rw [bind_error hclients]
    rfl

end

variable {isDone : RadminFTP → Bool}

theorem apart_cons :
    Apart isDone (a :: l) ↔ (isDone a = true → ∃ b, l.head? = some b ∧ isDone b = false) ∧ Apart isDone l := by
  constructor
  · intro h
    exact ⟨h [] a l rfl, fun front b back hl => h (a :: front) b back (by rw [hl]; rfl)⟩
  · rintro ⟨ha, h⟩ front b back hl
    cases front with
    | nil =>
      obtain ⟨rfl, rfl⟩ := List.cons.inj hl
      exact ha
    | cons c front => exact h front b back (List.cons.inj hl).2

/-- Exactly the entries that are done go, and the pass gets to the end, just when no two of them stand together
and none stands last. -/
theorem sweep_eq_iff : sweep isDone l = (l.filter fun a => !isDone a, true) ↔ Apart isDone l := by
  induction l using sweep.induct isDone with
  | case1 => exact ⟨fun _ front a back hl => absurd hl (by simp), fun _ => rfl⟩
  | case2 a hdone =>
    rw [sweep, if_pos hdone, apart_cons]
    refine ⟨fun h => absurd (congrArg Prod.snd h) (by simp), fun h => ?_⟩
    obtain ⟨b, hb, -⟩ := h.1 hdone
    cases hb
  | case3 a hdone =>
    rw [sweep, if_neg hdone, apart_cons]
    refine ⟨fun _ => ⟨fun h => absurd h hdone, fun front b back hl => absurd hl (by simp)⟩, fun _ => ?_⟩
    rw [List.filter_cons_of_pos (by simpa using hdone)]
    rfl
  | case4 a b l hdone ih =>
    rw [sweep, if_pos hdone, apart_cons, apart_cons, ← ih, List.filter_cons_of_neg (by simpa using hdone)]
    by_cases hb : isDone b = true
    · refine ⟨fun h => ?_, fun h => ?_⟩
      · have hfst : b :: (sweep isDone l).1 = (b :: l).filter fun a => !isDone a := congrArg Prod.fst h
        have hmem : b ∈ (b :: l).filter fun a => !isDone a := by
          rw [← hfst]
          exact List.mem_cons_self
        have hkept := (List.mem_filter.mp hmem).2
        rw [hb] at hkept
        cases hkept
      · obtain ⟨c, hc, hfalse⟩ := h.1 hdone
        obtain rfl := Option.some.inj hc
        rw [hb] at hfalse
        cases hfalse
    · rw [List.filter_cons_of_pos (by simpa using hb), Prod.mk.injEq, List.cons.injEq, Prod.ext_iff]
      refine ⟨fun h => ⟨fun _ => ⟨b, rfl, by simpa using hb⟩, fun h => absurd h hb, ?_⟩, fun h => ?_⟩
      · exact ⟨h.1.2, h.2⟩
      · exact ⟨⟨rfl, h.2.2.1⟩, h.2.2.2⟩
  | case5 a b l hdone ih =>
    rw [sweep, if_neg hdone, apart_cons, ← ih, List.filter_cons_of_pos (by simpa using hdone), Prod.mk.injEq,
      List.cons.injEq, Prod.ext_iff]
    exact ⟨fun h => ⟨fun h => absurd h hdone, h.1.2, h.2⟩, fun h => ⟨⟨rfl, h.2.1⟩, h.2.2⟩⟩

/-- A pass returns, with exactly the entries gone that are done, and its lock given back. -/
def Collects (fresh : Nat → Option RadminFTP) (isDone : RadminFTP → Bool) (freshMonitor : Nat → Option Monitor)
    (g : GarbageCollector Monitor RadminFTP) (l : List RadminFTP) : Prop :=
  ∃ g', run fresh isDone freshMonitor g = (.ok true, g') ∧
    Points g'._ftp_garbage (l.filter fun a => !isDone a) ∧ g'._critsec = false

/-- That is so exactly if every entry that is done stands in front of one that is not. -/
theorem collects_iff (fresh : Nat → Option RadminFTP) (freshMonitor : Nat → Option Monitor) {ms : List Monitor}
    (hms : Points g._garbage ms) (h : Points g._ftp_garbage l) (hfree : g._critsec = false) :
    Collects fresh isDone freshMonitor g l ↔ Apart isDone l := by
  obtain ⟨g', hrun, -, hpoints, hlock⟩ := run_spec fresh isDone freshMonitor hms h hfree
  rw [← sweep_eq_iff, Prod.ext_iff]
  constructor
  · rintro ⟨g'', hrun', hpoints', hlock'⟩
    obtain ⟨-, rfl⟩ := Prod.mk.inj (hrun.symm.trans hrun')
    rw [hlock', eq_comm, Bool.not_eq_false'] at hlock
    exact ⟨hpoints.unique hpoints', hlock⟩
  · rintro ⟨hkept, hended⟩
    rw [hended] at hrun hlock
    rw [hkept] at hpoints
    exact ⟨g', hrun, hpoints, hlock⟩

theorem collects_iff_mixed : ∃ g : GarbageCollector Unit Nat, Points g._ftp_garbage [4, 1, 2, 3] ∧
    Collects (fun _ => none) (fun n => n % 2 = 0) (fun _ => none) g [4, 1, 2, 3] := by
  obtain ⟨v, hv⟩ := exists_points (l := ([] : List Unit)) (by decide)
  obtain ⟨w, hw⟩ := exists_points (l := [4, 1, 2, 3]) (by decide)
  have hapart : Apart (fun n => n % 2 = 0) [4, 1, 2, 3] := by
    simp only [apart_cons, List.head?_cons]
    exact ⟨fun _ => ⟨1, rfl, rfl⟩, fun h => absurd h (by decide), fun _ => ⟨3, rfl, rfl⟩,
      fun h => absurd h (by decide), fun front a back hl => absurd hl (by simp)⟩
  exact ⟨⟨false, v, w⟩, hw, (collects_iff (fun _ => none) (fun _ => none) hv hw rfl).mpr hapart⟩

/-- Of two entries that are done the second one stays. -/
theorem not_collects : ¬∀ (isDone : Nat → Bool) (g : GarbageCollector Unit Nat) (l : List Nat), Points g._garbage [] →
    Points g._ftp_garbage l → g._critsec = false → Collects (fun _ => none) isDone (fun _ => none) g l := by
  intro hall
  obtain ⟨v, hv⟩ := exists_points (l := ([] : List Unit)) (by decide)
  obtain ⟨w, hw⟩ := exists_points (l := [2, 4, 1]) (by decide)
  obtain ⟨g', hrun, -, hpoints, -⟩ :=
    run_spec (g := ⟨false, v, w⟩) (fun _ => none) (fun n => n % 2 = 0) (fun _ => none) hv hw rfl
  obtain ⟨g'', hrun', hpoints', -⟩ := hall (fun n => n % 2 = 0) ⟨false, v, w⟩ [2, 4, 1] hv hw rfl
  obtain ⟨-, rfl⟩ := Prod.mk.inj (hrun.symm.trans hrun')
  exact absurd (hpoints.unique hpoints') (by decide)

end GarbageCollector

end Radmin

end Srl
