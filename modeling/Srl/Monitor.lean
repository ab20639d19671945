import Srl.StrFind
import Srl.ValueTrigger
import Srl.VectorIteration
import Mathlib.Data.List.Nodup

namespace Srl

open Occurrences Session Srl.Vector

namespace Radmin

/-- `Trigger::Actions`. -/
inductive Actions
  | STOP_MONITOR
  | REMOVE_TRIGGER
  | NOTIFY_INFO
  | NOTIFY_WARN
  | NOTIFY_ERROR
deriving DecidableEq

def Actions.toInt : Actions → Int32
  | .STOP_MONITOR => 1
  | .REMOVE_TRIGGER => 2
  | .NOTIFY_INFO => 4
  | .NOTIFY_WARN => 8
  | .NOTIFY_ERROR => 16

structure KeywordTrigger where
  _name : Bytes
  _type : Bytes
  _actions : Int32
  _checks : Int32
  _keyword : Bytes
  _match : Bytes
deriving DecidableEq

namespace KeywordTrigger

def ofKeyword (name keyword : Bytes) (actions : Int32) : KeywordTrigger :=
  ⟨name, bytes "keyword", actions, Checks.EQUAL_TO.toInt, keyword, []⟩

/-- The test `actions() & action`. -/
def asks (t : KeywordTrigger) (action : Actions) : Bool := t._actions &&& action.toInt ≠ 0

/-- What `check` answers, and the trigger with the `_match` that it leaves. -/
def check (t : KeywordTrigger) (data : Bytes) : Bool × KeywordTrigger :=
  if 0 ≤ Str.position (data.findText (Bytes.cstr t._keyword) 0) then (true, { t with _match := data }) else (false, t)

/-- A trigger matches a text that its keyword, up to a `NUL`, occurs in, in front of a `NUL`. -/
theorem check_iff (t : KeywordTrigger) {data : Bytes} (hlen : (Bytes.cstr data).length < 2 ^ 31) :
    (t.check data).1 = true ↔ Bytes.cstr t._keyword <:+: Bytes.cstr data := by
  have hfind : data.findText (Bytes.cstr t._keyword) 0 =
      (firstAt (Bytes.cstr t._keyword) (Bytes.cstr data)).map (0 + ·) := rfl
  rw [check, hfind]
  cases hfirst : firstAt (Bytes.cstr t._keyword) (Bytes.cstr data) with
  | none => exact ⟨fun h => absurd h Bool.false_ne_true, fun h => absurd h (firstAt_eq_none_iff.mp hfirst)⟩
  | some i =>
    have hi := (firstAt_eq_some_iff.mp hfirst).1
    obtain ⟨u, v, huv, -⟩ := firstAt_split hfirst
    rw [Option.map_some, Str.position_of_lt (by omega), if_pos (by omega)]
    exact ⟨fun _ => ⟨u, v, by rw [huv, List.append_assoc]⟩, fun _ => rfl⟩

end KeywordTrigger

/-- A monitor with what lies behind the pointers to its triggers. What the listeners do goes to `world`. -/
structure Monitor (Listener World : Type) where
  _key_triggers : Vector (Option Nat)
  _listeners : Vector (Option Listener)
  heap : Nat → Option KeywordTrigger
  brk : Nat
  world : World

namespace Monitor

variable {Listener World : Type}

abbrev Call (Listener World β : Type) := Method (Monitor Listener World) Stop β

def keyTriggers {β : Type} (x : Vector.Call (Option Nat) β) : Call Listener World β :=
  on Monitor._key_triggers (fun v m => { m with _key_triggers := v }) x

def listeners {β : Type} (x : Vector.Call (Option Listener) β) : Call Listener World β :=
  on Monitor._listeners (fun v m => { m with _listeners := v }) x

def init (fresh : Nat → Option Nat) (freshListener : Nat → Option Listener) (world : World) :
    Monitor Listener World where
  _key_triggers := (resizePointers fresh 32 (empty 32)).2
  _listeners := (resizePointers freshListener 32 (empty 32)).2
  heap := fun _ => none
  brk := 0
  world := world

def addListener (freshListener : Nat → Option Listener) (listener : Listener) : Call Listener World Unit :=
  listeners (add (resizePointers freshListener) (some listener))

/-- `*p`; there is nothing behind a pointer that is deleted. -/
def deref (p : Nat) : Call Listener World KeywordTrigger := do
  match (← get).heap p with
  | some trigger => pure trigger
  | none => throw (.thrown .fault)

/-- What lies behind a pointer becomes `trigger`, or nothing. -/
def store (p : Nat) (trigger : Option KeywordTrigger) : Call Listener World Unit :=
  modify fun m => { m with heap := Function.update m.heap p trigger }

section

variable (fresh : Nat → Option Nat) (monitor_triggered : Listener → Nat × KeywordTrigger → World → World) (data : Bytes)

def addTrigger (name keyword : Bytes) (actions : Int32) : Call Listener World Unit := do
  let p := (← get).brk
  modify fun m => { m with brk := p + 1 }
  store p (some (.ofKeyword name keyword actions))
  keyTriggers (add (resizePointers fresh) (some p))

/-- The value of an iterator over the triggers, which has to be followed. -/
def valueAt (pos : Nat) : Call Listener World Nat := do follow (← keyTriggers (Vector.get pos))

def asksAt (pos : Nat) (action : Actions) : Call Listener World Bool := do
  pure ((← deref (← valueAt pos)).asks action)

def checkAt (pos : Nat) : Call Listener World Bool := do
  let p ← valueAt pos
  let (matched, trigger) := (← deref p).check data
  store p (some trigger)
  pure matched

/-- The loop of `triggered`, from the position of its iterator on. -/
def triggeredLoop (p : Nat) : Nat → Nat → Call Listener World Unit
  | 0, _ => throw .unfinished
  | rounds + 1, pos => do
    if pos = (← get)._listeners.end_pos then pure ()
    else
      let listener ← follow (← listeners (Vector.get pos))
      let trigger ← deref p
      modify fun m => { m with world := monitor_triggered listener (p, trigger) m.world }
      triggeredLoop p rounds (forth pos)

def triggered (p : Nat) : Call Listener World Unit := do
  triggeredLoop monitor_triggered p ((← get)._listeners.size + 1) 0

/-- A round of `checkKeywords`: the position that its iterator is left at, or `none` when it returns. -/
def checkRound (pos : Nat) : Call Listener World (Option Nat) := do
  if (← checkAt data pos) then
    triggered monitor_triggered (← valueAt pos)
    if (← asksAt pos .STOP_MONITOR) then pure none
    else if (← asksAt pos .REMOVE_TRIGGER) then
      store (← valueAt pos) none
      keyTriggers (removeAt (resizePointers fresh) pos)
      pure (some (Vector.back pos))
    else pure (some pos)
  else pure (some pos)

def checkLoop : Nat → Nat → Call Listener World Bool
  | 0, _ => throw .unfinished
  | rounds + 1, pos => do
    if pos = (← get)._key_triggers.end_pos then pure true
    else
      match ← checkRound fresh monitor_triggered data pos with
      | none => pure false
      | some pos => checkLoop rounds (forth pos)

/-- Every round leaves one trigger less in front of it, so that their number is enough rounds. -/
def checkKeywords : Call Listener World Bool := do
  checkLoop fresh monitor_triggered data ((← get)._key_triggers.size + 1) 0

end

/-- The monitor has the triggers `l`, each behind a pointer of its own, and the listeners `ls`. -/
structure Watches (m : Monitor Listener World) (l : List (Nat × KeywordTrigger)) (ls : List Listener) : Prop where
  triggers : Points m._key_triggers (l.map Prod.fst)
  listeners : Points m._listeners ls
  live : ∀ x ∈ l, m.heap x.1 = some x.2
  nodup : (l.map Prod.fst).Nodup
  bound : ∀ x ∈ l, x.1 < m.brk

variable (fresh : Nat → Option Nat) {m : Monitor Listener World}
  {l front back : List (Nat × KeywordTrigger)} {x : Nat × KeywordTrigger} {ls heard unheard : List Listener}

theorem keyTriggers_eq {β : Type} {y : Vector.Call (Option Nat) β} {b : β} {v : Vector (Option Nat)}
    (h : y m._key_triggers = (.ok b, v)) : keyTriggers y m = (.ok b, { m with _key_triggers := v }) := on_ok h

theorem listeners_eq {β : Type} {y : Vector.Call (Option Listener) β} {b : β} {v : Vector (Option Listener)}
    (h : y m._listeners = (.ok b, v)) : Monitor.listeners y m = (.ok b, { m with _listeners := v }) := on_ok h

theorem deref_eq {p : Nat} {trigger : KeywordTrigger} (h : m.heap p = some trigger) : deref p m = (.ok trigger, m) := by
  unfold deref
  rw [get_bind, h]
  rfl

theorem store_bind {β : Type} (p : Nat) (trigger : Option KeywordTrigger) (f : Unit → Call Listener World β) :
    (store p trigger >>= f) m = f () { m with heap := Function.update m.heap p trigger } := rfl

namespace Watches

theorem init (fresh : Nat → Option Nat) (freshListener : Nat → Option Listener) (world : World) :
    Watches (Monitor.init fresh freshListener world) [] [] :=
  ⟨Points.new_spec fresh (by decide), Points.new_spec freshListener (by decide), fun _ hx => absurd hx List.not_mem_nil,
    List.nodup_nil, fun _ hx => absurd hx List.not_mem_nil⟩

theorem addListener (freshListener : Nat → Option Listener) (h : Watches m l ls)
    (hfew : ls.length + 1 + 32 < 2 ^ 32) (listener : Listener) :
    ∃ m', Monitor.addListener freshListener listener m = (.ok (), m') ∧ m'.brk = m.brk ∧
      m'.world = m.world ∧ Watches m' l (ls ++ [listener]) := by
  obtain ⟨v, hrun, hpoints⟩ := h.listeners.add_spec freshListener hfew listener
  exact ⟨{ m with _listeners := v }, listeners_eq hrun, rfl, rfl, h.triggers, hpoints, h.live, h.nodup, h.bound⟩

theorem addTrigger (h : Watches m l ls) (hfew : l.length + 1 + 32 < 2 ^ 32) (name keyword : Bytes) (actions : Int32) :
    ∃ m', Monitor.addTrigger fresh name keyword actions m = (.ok (), m') ∧ m'.brk = m.brk + 1 ∧
      m'.world = m.world ∧ Watches m' (l ++ [(m.brk, .ofKeyword name keyword actions)]) ls := by
  obtain ⟨v, hrun, hpoints⟩ := h.triggers.add_spec fresh (by rw [List.length_map]; exact hfew) m.brk
  let trigger := KeywordTrigger.ofKeyword name keyword actions
  let made : Monitor Listener World := { m with brk := m.brk + 1, heap := Function.update m.heap m.brk (some trigger) }
  have hadd : keyTriggers (add (resizePointers fresh) (some m.brk)) made = (.ok (), { made with _key_triggers := v }) :=
    keyTriggers_eq hrun
  have hnew : ∀ x ∈ l ++ [(m.brk, trigger)], x ∈ l ∨ x = (m.brk, trigger) := fun x hx =>
    (List.mem_append.mp hx).imp_right List.mem_singleton.mp
  refine ⟨{ made with _key_triggers := v }, hadd, rfl, rfl, ?_, h.listeners, fun x hx => ?_, ?_, fun x hx => ?_⟩
  · rw [List.map_append]
    exact hpoints
  · obtain hx | rfl := hnew x hx
    · exact (Function.update_of_ne (h.bound x hx).ne _ _).trans (h.live x hx)
    · exact Function.update_self ..
  · rw [List.map_append, List.map_singleton, List.nodup_append]
    refine ⟨h.nodup, List.pairwise_singleton _ _, fun p hp q hq hpq => ?_⟩
    obtain ⟨x, hx, rfl⟩ := List.mem_map.mp hp
    exact (h.bound x hx).ne (hpq.trans (List.mem_singleton.mp hq))
  · obtain hx | rfl := hnew x hx
    · exact Nat.lt_succ_of_lt (h.bound x hx)
    · exact Nat.lt_succ_self _

theorem size_eq (h : Watches m l ls) : m._key_triggers.size = l.length := by
  rw [h.triggers.size_eq, List.length_map]

theorem end_eq (h : Watches m l ls) : m._key_triggers.end_pos = l.length := by
  rw [h.triggers.end_eq, List.length_map]

theorem few (h : Watches m l ls) : l.length + 32 < 2 ^ 32 := by
  have hfew := h.triggers.few
  rw [List.length_map] at hfew
  exact hfew

theorem live_at (h : Watches m (front ++ x :: back) ls) : m.heap x.1 = some x.2 :=
  h.live x (List.mem_append_right _ List.mem_cons_self)

theorem valueAt_eq (h : Watches m (front ++ x :: back) ls) : valueAt front.length m = (.ok x.1, m) := by
  have hpoints := h.triggers
  rw [List.map_append, List.map_cons] at hpoints
  have hget := hpoints.get_eq
  rw [List.length_map] at hget
  rw [valueAt, bind_ok (keyTriggers_eq hget)]
  rfl

theorem asksAt_eq (h : Watches m (front ++ x :: back) ls) (action : Actions) :
    asksAt front.length action m = (.ok (x.2.asks action), m) := by
  rw [asksAt, bind_ok h.valueAt_eq, bind_ok (deref_eq h.live_at)]
  rfl

theorem others (h : Watches m (front ++ x :: back) ls) :
    ((front ++ back).map Prod.fst).Nodup ∧ ∀ y ∈ front ++ back, y.1 ≠ x.1 ∧ m.heap y.1 = some y.2 ∧ y.1 < m.brk := by
  have hnodup := h.nodup
  rw [List.map_append, List.map_cons, List.nodup_middle, List.nodup_cons, ← List.map_append] at hnodup
  refine ⟨hnodup.2, fun y hy => ?_⟩
  have hmem : y ∈ front ++ x :: back := List.perm_middle.mem_iff.mpr (List.mem_cons_of_mem _ hy)
  exact ⟨fun heq => hnodup.1 (List.mem_map.mpr ⟨y, hy, heq⟩), h.live y hmem, h.bound y hmem⟩

/-- A trigger whose fields are written to stays where it is. -/
theorem store (h : Watches m (front ++ x :: back) ls) (trigger : KeywordTrigger) :
    Watches { m with heap := Function.update m.heap x.1 (some trigger) } (front ++ (x.1, trigger) :: back) ls := by
  have hfst : (front ++ (x.1, trigger) :: back).map Prod.fst = (front ++ x :: back).map Prod.fst := by
    rw [List.map_append, List.map_append, List.map_cons, List.map_cons]
  have hmem : ∀ y ∈ front ++ (x.1, trigger) :: back, y = (x.1, trigger) ∨ y ∈ front ++ back := fun y hy =>
    List.mem_cons.mp (List.perm_middle.mem_iff.mp hy)
  refine ⟨by rw [hfst]; exact h.triggers, h.listeners, fun y hy => ?_, by rw [hfst]; exact h.nodup, fun y hy => ?_⟩
  · obtain rfl | hy := hmem y hy
    · exact Function.update_self ..
    · obtain ⟨hne, hlive, -⟩ := h.others.2 y hy
      exact (Function.update_of_ne hne _ _).trans hlive
  · obtain rfl | hy := hmem y hy
    · exact h.bound x (List.mem_append_right _ List.mem_cons_self)
    · exact (h.others.2 y hy).2.2

/-- The trigger at the iterator is deleted and its pointer erased. -/
theorem erase (h : Watches m (front ++ x :: back) ls) :
    ∃ v, keyTriggers (removeAt (resizePointers fresh) front.length) { m with heap := Function.update m.heap x.1 none } =
        (.ok (), { m with heap := Function.update m.heap x.1 none, _key_triggers := v }) ∧
      Watches { m with heap := Function.update m.heap x.1 none, _key_triggers := v } (front ++ back) ls := by
  have hpoints := h.triggers
  rw [List.map_append, List.map_cons] at hpoints
  obtain ⟨v, hrun, hpoints'⟩ := hpoints.erase_spec fresh
  rw [List.length_map] at hrun
  rw [← List.map_append] at hpoints'
  obtain ⟨hnodup, hothers⟩ := h.others
  refine ⟨v, keyTriggers_eq hrun, hpoints', h.listeners, fun y hy => ?_, hnodup, fun y hy => (hothers y hy).2.2⟩
  obtain ⟨hne, hlive, -⟩ := hothers y hy
  exact (Function.update_of_ne hne _ _).trans hlive

theorem world (h : Watches m l ls) (w : World) : Watches { m with world := w } l ls :=
  ⟨h.triggers, h.listeners, h.live, h.nodup, h.bound⟩

end Watches

section

variable (data : Bytes)

/-- The trigger as `check` leaves it. -/
def mark (x : Nat × KeywordTrigger) : Nat × KeywordTrigger := (x.1, (x.2.check data).2)

def matching (x : Nat × KeywordTrigger) : Bool := (x.2.check data).1

def stops (x : Nat × KeywordTrigger) : Bool := matching data x && x.2.asks .STOP_MONITOR

/-- The trigger is removed: one that stops the monitor stays. -/
def removes (x : Nat × KeywordTrigger) : Bool :=
  matching data x && (x.2.asks .REMOVE_TRIGGER && !x.2.asks .STOP_MONITOR)

/-- The triggers up to and including the first one that stops. -/
def checked (l : List (Nat × KeywordTrigger)) : List (Nat × KeywordTrigger) :=
  (l.takeWhile fun x => !stops data x) ++ (l.find? (stops data)).toList

/-- The triggers that fire, in their order. -/
def fired (l : List (Nat × KeywordTrigger)) : List (Nat × KeywordTrigger) :=
  ((checked data l).filter (matching data)).map (mark data)

/-- The triggers that are left. -/
def left (l : List (Nat × KeywordTrigger)) : List (Nat × KeywordTrigger) :=
  ((checked data l).filter fun x => !removes data x).map (mark data) ++ l.drop (checked data l).length

end

/-- Every listener, in order, is told of every trigger, in order. -/
def tell (monitor_triggered : Listener → Nat × KeywordTrigger → World → World) (ls : List Listener)
    (fired : List (Nat × KeywordTrigger)) (w : World) : World :=
  fired.foldl (fun w x => ls.foldl (fun w listener => monitor_triggered listener x w) w) w

variable (monitor_triggered : Listener → Nat × KeywordTrigger → World → World) (data : Bytes) {rounds : Nat}

theorem asks_mark (action : Actions) : (mark data x).2.asks action = x.2.asks action := by
  unfold mark KeywordTrigger.check
  split <;> rfl

theorem checked_cons (x : Nat × KeywordTrigger) (l : List (Nat × KeywordTrigger)) :
    checked data (x :: l) = x :: if stops data x then [] else checked data l := by
  unfold checked
  cases hstops : stops data x with
  | true => rw [List.takeWhile_cons_of_neg (by rw [hstops]; decide), List.find?_cons_of_pos hstops]; rfl
  | false =>
    rw [List.takeWhile_cons_of_pos (by rw [hstops]; rfl), List.find?_cons_of_neg (by rw [hstops]; decide)]
    rfl

theorem triggeredLoop_spec (hlive : m.heap x.1 = some x.2) (h : Points m._listeners (heard ++ unheard))
    (hrounds : unheard.length < rounds) :
    triggeredLoop monitor_triggered x.1 rounds heard.length m =
      (.ok (), { m with world := unheard.foldl (fun w listener => monitor_triggered listener x w) m.world }) := by
  obtain ⟨rounds, rfl⟩ := Nat.exists_eq_succ_of_ne_zero (Nat.ne_zero_of_lt hrounds)
  induction unheard generalizing heard m rounds with
  | nil =>
    rw [triggeredLoop, get_bind, h.end_eq, List.append_nil, if_pos rfl]
    rfl
  | cons listener unheard ih =>
    have hfew := h.few
    rw [List.length_append, List.length_cons] at hfew
    rw [List.length_cons] at hrounds
    obtain ⟨rounds, rfl⟩ := Nat.exists_eq_succ_of_ne_zero (by omega : rounds ≠ 0)
    have hget : Monitor.listeners (Vector.get heard.length) m = (.ok (some listener), m) := listeners_eq h.get_eq
    have hfollow : follow (some listener) m = (.ok listener, m) := rfl
    rw [triggeredLoop, get_bind, h.end_eq, if_neg (by rw [List.length_append, List.length_cons]; omega),
      bind_ok hget, bind_ok hfollow, bind_ok (deref_eq hlive), modify_bind, forth, Nat.mod_eq_of_lt (by omega)]
    rw [List.append_cons] at h
    have hrest := ih (m := { m with world := monitor_triggered listener x m.world }) hlive h rounds (by omega)
    rw [List.length_append, List.length_singleton] at hrest
    exact hrest

theorem triggered_eq (hlive : m.heap x.1 = some x.2) (h : Points m._listeners ls) :
    triggered monitor_triggered x.1 m = (.ok (), { m with world := tell monitor_triggered ls [x] m.world }) := by
  rw [triggered, get_bind, h.size_eq]
  have hall : Points m._listeners ([] ++ ls) := h
  exact triggeredLoop_spec monitor_triggered hlive hall (Nat.lt_succ_self _)

theorem checkAt_spec (h : Watches m (front ++ x :: back) ls) :
    checkAt data front.length m =
      (.ok (matching data x), { m with heap := Function.update m.heap x.1 (some (mark data x).2) }) := by
  rw [checkAt, bind_ok h.valueAt_eq, bind_ok (deref_eq h.live_at)]
  rfl

/-- Where a round that looks at `x` leaves the iterator. -/
def next (data : Bytes) (x : Nat × KeywordTrigger) (pos : Nat) : Option Nat :=
  if stops data x then none else if removes data x then some (Vector.back pos) else some pos

theorem checkRound_unmatched (h : Watches m (front ++ x :: back) ls) (hmatch : matching data x = false) :
    ∃ m', checkRound fresh monitor_triggered data front.length m = (.ok (some front.length), m') ∧
      Watches m' (front ++ mark data x :: back) ls ∧ m'.world = m.world := by
  have hcheck := checkAt_spec data h
  rw [hmatch] at hcheck
  refine ⟨_, ?_, h.store (mark data x).2, rfl⟩
  rw [checkRound, bind_ok hcheck]
  rfl

theorem checkRound_matched (h : Watches m (front ++ x :: back) ls) (hmatch : matching data x = true) :
    ∃ m', checkRound fresh monitor_triggered data front.length m = (.ok (next data x front.length), m') ∧
      Watches m' (front ++ if removes data x then back else mark data x :: back) ls ∧
      m'.world = tell monitor_triggered ls [mark data x] m.world := by
  have hcheck := checkAt_spec data h
  rw [hmatch] at hcheck
  have hmarked : Watches { m with heap := Function.update m.heap x.1 (some (mark data x).2) }
      (front ++ mark data x :: back) ls := h.store (mark data x).2
  have htriggered := triggered_eq monitor_triggered hmarked.live_at hmarked.listeners
  have htold := hmarked.world (tell monitor_triggered ls [mark data x] m.world)
  rw [checkRound, bind_ok hcheck, if_pos rfl, bind_ok hmarked.valueAt_eq, bind_ok htriggered,
    bind_ok (htold.asksAt_eq .STOP_MONITOR), next, stops, removes, hmatch, asks_mark]
  cases hstop : x.2.asks .STOP_MONITOR with
  | true => exact ⟨_, rfl, by rw [Bool.not_true, Bool.and_false, Bool.and_false]; exact htold, rfl⟩
  | false =>
    rw [if_neg Bool.false_ne_true, bind_ok (htold.asksAt_eq .REMOVE_TRIGGER), asks_mark]
    cases hremove : x.2.asks .REMOVE_TRIGGER with
    | false => exact ⟨_, rfl, htold, rfl⟩
    | true =>
      obtain ⟨v, hrun, herased⟩ := htold.erase fresh
      rw [if_pos rfl, bind_ok htold.valueAt_eq, store_bind, bind_ok hrun]
      exact ⟨_, rfl, herased, rfl⟩

theorem stops_of_unmatched (hmatch : matching data x = false) : stops data x = false ∧ removes data x = false := by
  unfold stops removes
  rw [hmatch]
  exact ⟨rfl, rfl⟩

theorem removes_of_stops (hstops : stops data x = true) : removes data x = false := by
  unfold removes
  rw [(Bool.and_eq_true_iff.mp hstops).2, Bool.not_true, Bool.and_false, Bool.and_false]

theorem fired_cons (x : Nat × KeywordTrigger) (l : List (Nat × KeywordTrigger)) :
    fired data (x :: l) = (if matching data x then [mark data x] else []) ++
      if stops data x then [] else fired data l := by
  rw [fired, checked_cons, List.filter_cons]
  cases stops data x <;> cases matching data x <;> rfl

theorem left_cons (x : Nat × KeywordTrigger) (l : List (Nat × KeywordTrigger)) :
    left data (x :: l) = (if removes data x then [] else [mark data x]) ++ if stops data x then l else left data l := by
  rw [left, checked_cons, List.filter_cons]
  cases stops data x <;> cases removes data x <;> rfl

/-- One round of the loop: nothing that the iterator has passed is looked at again. -/
theorem checkRound_spec (h : Watches m (front ++ x :: back) ls) :
    ∃ m', checkRound fresh monitor_triggered data front.length m = (.ok (next data x front.length), m') ∧
      Watches m' (front ++ if removes data x then back else mark data x :: back) ls ∧
      m'.world = tell monitor_triggered ls (if matching data x then [mark data x] else []) m.world := by
  cases hmatch : matching data x with
  | true => exact checkRound_matched fresh monitor_triggered data h hmatch
  | false =>
    obtain ⟨hstops, hremoves⟩ := stops_of_unmatched data hmatch
    rw [next, hstops, hremoves]
    exact checkRound_unmatched fresh monitor_triggered data h hmatch

theorem tell_append (f f' : List (Nat × KeywordTrigger)) (w : World) :
    tell monitor_triggered ls (f ++ f') w = tell monitor_triggered ls f' (tell monitor_triggered ls f w) :=
  List.foldl_append

theorem checkLoop_spec (h : Watches m (front ++ l) ls) (hrounds : l.length < rounds) :
    ∃ m', checkLoop fresh monitor_triggered data rounds front.length m = (.ok (l.all fun x => !stops data x), m') ∧
      Watches m' (front ++ left data l) ls ∧ m'.world = tell monitor_triggered ls (fired data l) m.world := by
  induction l generalizing front m rounds with
  | nil =>
    obtain ⟨rounds, rfl⟩ := Nat.exists_eq_succ_of_ne_zero (Nat.ne_zero_of_lt hrounds)
    refine ⟨m, ?_, h, rfl⟩
    rw [checkLoop, get_bind, h.end_eq, List.append_nil, if_pos rfl]
    rfl
  | cons x l ih =>
    rw [List.length_cons] at hrounds
    obtain ⟨rounds, rfl⟩ := Nat.exists_eq_succ_of_ne_zero (by omega : rounds ≠ 0)
    have hfew := h.few
    rw [List.length_append, List.length_cons] at hfew
    obtain ⟨m', hround, hwatches, hworld⟩ := checkRound_spec fresh monitor_triggered data h
    rw [checkLoop, get_bind, h.end_eq, if_neg (by rw [List.length_append, List.length_cons]; omega), bind_ok hround,
      List.all_cons, left_cons, fired_cons, tell_append, ← hworld]
    cases hstops : stops data x with
    | true =>
      rw [removes_of_stops data hstops] at hwatches ⊢
      rw [next, hstops]
      exact ⟨m', rfl, hwatches, rfl⟩
    | false =>
      cases hremoves : removes data x with
      | true =>
        rw [hremoves] at hwatches
        obtain ⟨m'', hrest, hwatches', hworld'⟩ := ih hwatches (by omega : l.length < rounds)
        rw [next, hstops, hremoves]
        refine ⟨m'', ?_, hwatches', hworld'⟩
        show checkLoop fresh monitor_triggered data rounds (forth (Vector.back front.length)) m' = _
        rw [back_forth (by omega)]
        exact hrest
      | false =>
        rw [hremoves, if_neg Bool.false_ne_true, List.append_cons] at hwatches
        obtain ⟨m'', hrest, hwatches', hworld'⟩ := ih hwatches (by omega : l.length < rounds)
        rw [List.length_append, List.length_singleton] at hrest
        rw [← List.append_cons] at hwatches'
        rw [next, hstops, hremoves]
        refine ⟨m'', ?_, hwatches', hworld'⟩
        show checkLoop fresh monitor_triggered data rounds (forth front.length) m' = _
        rw [forth, Nat.mod_eq_of_lt (by omega)]
        exact hrest

/-- The triggers that match fire, each once and in order, up to and including the first that stops the monitor;
of them those that ask for it are removed, and the call says whether it got to the end. -/
theorem checkKeywords_fires (h : Watches m l ls) :
    ∃ m', checkKeywords fresh monitor_triggered data m = (.ok (l.all fun x => !stops data x), m') ∧
      Watches m' (left data l) ls ∧ m'.world = tell monitor_triggered ls (fired data l) m.world := by
  rw [checkKeywords, get_bind, h.size_eq]
  have hall : Watches m ([] ++ l) ls := h
  exact checkLoop_spec fresh monitor_triggered data hall (Nat.lt_succ_self _)

/-- The first trigger, which is removed, and the one behind it, which stops the monitor, both fire. -/
theorem checkKeywords_fires_removed : ∃ m m' : Monitor Unit (List Nat),
    Watches m [(0, .ofKeyword (bytes "a") (bytes "er") 2), (1, .ofKeyword (bytes "b") (bytes "err") 1)] [()] ∧
    checkKeywords (fun _ => none) (fun _ x w => w ++ [x.1]) (bytes "error") m = (.ok false, m') ∧
    Watches m' [(1, { KeywordTrigger.ofKeyword (bytes "b") (bytes "err") 1 with _match := bytes "error" })] [()] ∧
    m'.world = [0, 1] := by
  obtain ⟨m₁, -, hbrk, hworld, h₁⟩ := (Watches.init (fun _ => none) (fun _ => none) ([] : List Nat)).addListener
    (fun _ => none) (by decide) ()
  obtain ⟨m₂, -, hbrk₂, hworld₂, h₂⟩ := h₁.addTrigger (fun _ => none) (by decide) (bytes "a") (bytes "er") 2
  obtain ⟨m, -, -, hworld₃, h⟩ := h₂.addTrigger (fun _ => none) (by simp) (bytes "b") (bytes "err") 1
  have hw : m.world = [] := hworld₃.trans (hworld₂.trans hworld)
  rw [hbrk₂, hbrk] at h
  obtain ⟨m', hrun, hwatches, hfired⟩ := checkKeywords_fires (fun _ => none) (fun _ x w => w ++ [x.1]) (bytes "error") h
  rw [hw] at hfired
  exact ⟨m, m', h, hrun, hwatches, hfired⟩

end Monitor

end Radmin

end Srl
