import Srl.ProcessList
import Srl.DictionaryIteration

namespace Srl

open Session Dictionary

namespace ProcessList

variable {Status : Type} {l : ProcessList Status} {m : List (UInt32 × Ptr)} {pid : UInt32}

/-- The processes that the bindings point to, each with the pid it is bound to, are all that are allocated. -/
structure Owned (l : ProcessList Status) (m : List (UInt32 × Ptr)) : Prop where
  process : ∀ b ∈ m, ∃ p, l.heap b.2 = some p ∧ p.pid = b.1
  nodup : (m.map Prod.snd).Nodup
  live : ∀ a, (l.heap a).isSome → a ∈ m.map Prod.snd
  bound : ∀ b ∈ m, b.2 ≠ NULL ∧ b.2 < l.brk
  brk : 0 < l.brk

namespace Owned

theorem congr {l' : ProcessList Status} (h : Owned l m) (hheap : l'.heap = l.heap) (hbrk : l'.brk = l.brk) :
    Owned l' m := by
  refine ⟨?_, h.nodup, ?_, ?_, ?_⟩
  · rw [hheap]
    exact h.process
  · rw [hheap]
    exact h.live
  · rw [hbrk]
    exact h.bound
  · rw [hbrk]
    exact h.brk

/-- A process that is written to keeps its pid. -/
theorem update (h : Owned l m) {a : Ptr} {p p' : Process Status} (ha : l.heap a = some p) (hp : p'.pid = p.pid) :
    Owned { l with heap := Function.update l.heap a (some p') } m := by
  refine ⟨fun b hb => ?_, h.nodup, fun c hc => ?_, h.bound, h.brk⟩
  · obtain ⟨q, hq, hpid⟩ := h.process b hb
    by_cases hba : b.2 = a
    · subst hba
      rw [ha] at hq
      cases hq
      exact ⟨p', Function.update_self .., hp.trans hpid⟩
    · exact ⟨q, (Function.update_of_ne hba ..).trans hq, hpid⟩
  · by_cases hca : c = a
    · exact h.live c (by rw [hca, ha]; rfl)
    · have hc' : (Function.update l.heap a (some p') c).isSome := hc
      rw [Function.update_of_ne hca] at hc'
      exact h.live c hc'

/-- A new process, bound to its pid. -/
theorem snoc (h : Owned l m) {p : Process Status} :
    Owned { l with heap := Function.update l.heap l.brk (some p), brk := l.brk + 1 } (m ++ [(p.pid, l.brk)]) := by
  have hne : ∀ b ∈ m, b.2 ≠ l.brk := fun b hb => Nat.ne_of_lt (h.bound b hb).2
  refine ⟨fun b hb => ?_, ?_, fun a ha => ?_, fun b hb => ?_, Nat.succ_pos _⟩
  · rcases List.mem_append.mp hb with hb | hb
    · obtain ⟨q, hq, hpid⟩ := h.process b hb
      exact ⟨q, (Function.update_of_ne (hne b hb) ..).trans hq, hpid⟩
    · obtain rfl := List.mem_singleton.mp hb
      exact ⟨p, Function.update_self .., rfl⟩
  · rw [List.map_append, List.map_singleton]
    refine h.nodup.append (List.nodup_singleton _) fun a ha hbrk => ?_
    obtain ⟨b, hb, rfl⟩ := List.mem_map.mp ha
    exact hne b hb (List.mem_singleton.mp hbrk)
  · rw [List.map_append, List.map_singleton]
    by_cases hbrk : a = l.brk
    · exact List.mem_append_right _ (by rw [hbrk]; exact List.mem_singleton_self _)
    · have ha' : (Function.update l.heap l.brk (some p) a).isSome := ha
      rw [Function.update_of_ne hbrk] at ha'
      exact List.mem_append_left _ (h.live a ha')
  · rcases List.mem_append.mp hb with hb | hb
    · obtain ⟨hnull, hlt⟩ := h.bound b hb
      exact ⟨hnull, Nat.lt_succ_of_lt hlt⟩
    · obtain rfl := List.mem_singleton.mp hb
      exact ⟨Nat.ne_of_gt h.brk, Nat.lt_succ_self _⟩

/-- A process is deleted together with its binding. -/
theorem drop {xs ys : List (UInt32 × Ptr)} {b : UInt32 × Ptr} (h : Owned l (xs ++ b :: ys)) :
    Owned { l with heap := Function.update l.heap b.2 none } (xs ++ ys) := by
  have hsub : ∀ c ∈ xs ++ ys, c ∈ xs ++ b :: ys := fun c hc => by
    rcases List.mem_append.mp hc with hc | hc
    · exact List.mem_append_left _ hc
    · exact List.mem_append_right _ (List.mem_cons_of_mem b hc)
  have hnodup := h.nodup
  rw [List.map_append, List.map_cons] at hnodup
  obtain ⟨hb, hrest⟩ := List.nodup_cons.mp (List.nodup_middle.mp hnodup)
  rw [← List.map_append] at hb hrest
  have hne : ∀ c ∈ xs ++ ys, c.2 ≠ b.2 := fun c hc heq => hb (heq ▸ List.mem_map_of_mem hc)
  refine ⟨fun c hc => ?_, hrest, fun a ha => ?_, fun c hc => h.bound c (hsub c hc), h.brk⟩
  · obtain ⟨q, hq, hpid⟩ := h.process c (hsub c hc)
    exact ⟨q, (Function.update_of_ne (hne c hc) ..).trans hq, hpid⟩
  · have ha' : (Function.update l.heap b.2 none a).isSome := ha
    by_cases hab : a = b.2
    · rw [hab, Function.update_self] at ha'
      cases ha'
    · rw [Function.update_of_ne hab] at ha'
      obtain ⟨c, hc, rfl⟩ := List.mem_map.mp (h.live a ha')
      refine List.mem_map_of_mem ?_
      rcases List.mem_append.mp hc with hc | hc
      · exact List.mem_append_left _ hc
      · rcases List.mem_cons.mp hc with rfl | hc
        · exact absurd rfl hab
        · exact List.mem_append_right _ hc

end Owned

theorem has_iff_mem : KeyedList.has Hasher.hash m (Hasher.hash pid) = true ↔ pid ∈ m.map Prod.fst := by
  rw [KeyedList.has_iff, List.mem_map]
  exact exists_congr fun b => and_congr_right fun _ => InjectiveHash.injective.eq_iff

theorem mem_of_lookup {v : Ptr} (h : KeyedList.lookup Hasher.hash m (Hasher.hash pid) = some v) : (pid, v) ∈ m := by
  obtain ⟨b, hb, rfl⟩ := Option.map_eq_some_iff.mp h
  have hhash := List.find?_some hb
  obtain rfl : b.1 = pid := InjectiveHash.injective (of_decide_eq_true hhash)
  exact List.mem_of_find?_eq_some hb

theorem getProcess_spec (hl : Represents l.list m) (ho : Owned l m) (pid : UInt32) :
    ∃ process, getProcess pid l = (.ok process, l) ∧
      ((process = NULL ∧ pid ∉ m.map Prod.fst) ∨ (process ≠ NULL ∧ (pid, process) ∈ m)) := by
  obtain ⟨iter, hfind, hcase⟩ := find_spec hl pid
  unfold getProcess
  rw [get_bind, hfind]
  dsimp only
  rcases hcase with ⟨hnull, hno⟩ | ⟨hnull, e, he, -, -, hlookup⟩
  · rw [if_pos hnull]
    refine ⟨NULL, rfl, .inl ⟨rfl, fun hmem => ?_⟩⟩
    rw [← has_iff_mem, ← KeyedList.lookup_isSome, hno] at hmem
    cases hmem
  · have hentry : entry iter l = (.ok e, l) := by
      unfold entry
      rw [get_bind, he]
      rfl
    have hmem := mem_of_lookup hlookup
    rw [if_neg hnull, bind_ok hentry]
    exact ⟨e.value, rfl, .inr ⟨(ho.bound _ hmem).1, hmem⟩⟩

theorem load_eq {a : Ptr} {p : Process Status} (ha : l.heap a = some p) : load a l = (.ok p, l) := by
  unfold load
  rw [get_bind, ha]
  rfl

/-- What a listener is told about a list of pids. -/
def told (listener : Bool) (event : UInt32 → ProcessEvent) (pids : List UInt32) : List ProcessEvent :=
  if listener then pids.map event else []

theorem told_append (listener : Bool) (event : UInt32 → ProcessEvent) (xs ys : List UInt32) :
    told listener event (xs ++ ys) = told listener event xs ++ told listener event ys := by
  unfold told
  split
  next => rw [List.map_append]
  next => rfl

theorem notify_eq {a : Ptr} {p : Process Status} (event : UInt32 → ProcessEvent) (ha : l.heap a = some p) :
    notify event a l = (.ok (), { l with events := l.events ++ told l.listener event [p.pid] }) := by
  unfold notify told
  rw [get_bind]
  split
  next =>
    rw [bind_ok (load_eq ha)]
    rfl
  next =>
    rw [List.append_nil]
    rfl

variable {view : ProcessList Status → Vector UInt32} {put : Vector UInt32 → ProcessList Status → ProcessList Status}
  {ps ns : List UInt32} (fresh : ProcessList Status → Nat → UInt32) (proc : Proc Status)

theorem addTo_spec (h : (view l).Grows ps) (hfew : ps.length ≤ 2 ^ 31) (pid : UInt32) :
    ∃ v, addTo fresh (part view put) pid l = (.ok (), put v l) ∧ v.Grows (ps ++ [pid]) := by
  obtain ⟨v, hv, hgrows⟩ := h.add_spec (fresh l) (by omega) pid
  unfold addTo
  rw [get_bind]
  exact ⟨v, part_eq hv, hgrows⟩

theorem clearAll_spec (h : (view l).Holds ps) (hinit : (view l).init_size = 32) :
    ∃ v, clearAll fresh (part view put) l = (.ok (), put v l) ∧ v.Grows [] := by
  obtain ⟨v, hv, hgrows⟩ := h.clear_grows (fresh l) hinit
  unfold clearAll
  rw [get_bind]
  exact ⟨v, part_eq hv, hgrows⟩

/-- What holds while the directory is read: `m` are the bindings, `ps` the pids read so far and `ns` the new
ones among them. -/
structure Scanned (l : ProcessList Status) (m : List (UInt32 × Ptr)) (ps ns : List UInt32) : Prop where
  represents : Represents l.list m
  owned : Owned l m
  pids : l.pids.Grows ps
  new_pids : l.new_pids.Grows ns

/-- The fields that the scan leaves alone. -/
structure SameRest (l l' : ProcessList Status) : Prop where
  listener : l'.listener = l.listener
  last_update : l'.last_update = l.last_update
  dead_pids : l'.dead_pids = l.dead_pids

theorem refreshProcess_spec {a : Ptr} (ho : Owned l m) (ha : (pid, a) ∈ m) :
    ∃ heap, refreshProcess proc a l = (.ok (), { l with heap := heap }) ∧ Owned { l with heap := heap } m := by
  obtain ⟨p, hp, -⟩ := ho.process _ ha
  unfold refreshProcess
  rw [bind_ok (load_eq hp)]
  exact ⟨_, rfl, ho.update hp rfl⟩

/-- `new Process`, the assignment to the dictionary and the call of the listener. -/
theorem start_spec (hl : Represents l.list m) (ho : Owned l m) (hnew : pid ∉ m.map Prod.fst) :
    ∃ l',
      (do let process ← newProcess proc pid; assign pid process; notify .started process : Call Status Unit) l =
        (.ok (), l') ∧
      Represents l'.list (m ++ [(pid, l.brk)]) ∧ Owned l' (m ++ [(pid, l.brk)]) ∧
      l'.pids = l.pids ∧ l'.new_pids = l.new_pids ∧ SameRest l l' ∧
      l'.events = l.events ++ told l.listener .started [pid] := by
  let p : Process Status := ⟨pid, proc.initial pid⟩
  let l₁ : ProcessList Status := { l with heap := Function.update l.heap l.brk (some p), brk := l.brk + 1 }
  have hprocess : newProcess proc pid l = (.ok l.brk, l₁) := rfl
  obtain ⟨list, hassign, hlist⟩ := assign_spec hl pid l.brk
  rw [KeyedList.assign, if_neg (by rw [has_iff_mem]; exact hnew)] at hlist
  have hrun : assign pid l.brk l₁ = (.ok (), { l₁ with list := list }) := by
    unfold assign
    rw [get_bind, show l₁.list.assign pid l.brk = some list from hassign]
    rfl
  have hheap : ({ l₁ with list := list } : ProcessList Status).heap l.brk = some p := Function.update_self ..
  rw [bind_ok hprocess, bind_ok hrun]
  exact ⟨_, notify_eq .started hheap, hlist, (@Owned.snoc _ l m ho p).congr rfl rfl, rfl, rfl, ⟨rfl, rfl, rfl⟩, rfl⟩

/-- The pids among `pids` that have no binding. -/
def unbound (m : List (UInt32 × Ptr)) (pids : List UInt32) : List UInt32 := pids.filter fun pid => pid ∉ m.map Prod.fst

/-- A pid that was read before has its process refreshed, and a new one gets a process. -/
theorem visit_spec (h : Scanned l m ps ns) (hps : ps.length ≤ 2 ^ 31) (hns : ns.length ≤ 2 ^ 31) (pid : UInt32) :
    ∃ l' m', visit proc fresh pid l = (.ok (), l') ∧ Scanned l' (m ++ m') (ps ++ [pid]) (ns ++ unbound m [pid]) ∧
      m'.map Prod.fst = unbound m [pid] ∧ SameRest l l' ∧
      l'.events = l.events ++ told l.listener .started (unbound m [pid]) := by
  obtain ⟨v, hadd, hpids⟩ := @addTo_spec _ l ProcessList.pids (fun v l => { l with pids := v }) ps fresh h.pids hps pid
  obtain ⟨process, hget, hcase⟩ := @getProcess_spec _ { l with pids := v } m h.represents (h.owned.congr rfl rfl) pid
  unfold visit
  rw [bind_ok hadd, bind_ok hget]
  rcases hcase with ⟨hnull, hnew⟩ | ⟨hnull, hmem⟩
  · have hunbound : unbound m [pid] = [pid] := List.filter_eq_self.mpr fun q hq => by
      rw [List.mem_singleton.mp hq]
      exact decide_eq_true hnew
    obtain ⟨w, hadd', hnews⟩ := @addTo_spec _ { l with pids := v } new_pids
      (fun v l => { l with new_pids := v }) ns fresh
      h.new_pids hns pid
    obtain ⟨l', hstart, hlist, howned, hp, hn, hsame, hevents⟩ :=
      @start_spec _ { l with pids := v, new_pids := w } m pid proc
      h.represents (h.owned.congr rfl rfl) hnew
    rw [if_pos hnull, bind_ok hadd', hunbound]
    refine ⟨l', [(pid, l.brk)], hstart, ⟨hlist, howned, ?_, ?_⟩, rfl,
      ⟨hsame.listener, hsame.last_update, hsame.dead_pids⟩, hevents⟩
    · rw [hp]
      exact hpids
    · rw [hn]
      exact hnews
  · have hunbound : unbound m [pid] = [] := List.filter_eq_nil_iff.mpr fun q hq => by
      rw [List.mem_singleton.mp hq, decide_eq_true_eq, not_not]
      exact List.mem_map_of_mem hmem
    obtain ⟨heap, hrefresh, howned⟩ := @refreshProcess_spec _ { l with pids := v } m pid proc process
      (h.owned.congr rfl rfl) hmem
    rw [if_neg hnull, hunbound, List.append_nil]
    refine ⟨_, [], hrefresh, ⟨?_, ?_, hpids, h.new_pids⟩, rfl, ⟨rfl, rfl, rfl⟩, ?_⟩
    · rw [List.append_nil]
      exact h.represents
    · rw [List.append_nil]
      exact howned
    · unfold told
      split <;> exact (List.append_nil _).symm

/-- The pids that a scan of the directory delivers. -/
def pidsRead (names : List Bytes) : List UInt32 := (names.filter numeric).map fun d_name => Bytes.uint d_name 10

theorem unbound_append {m' : List (UInt32 × Ptr)} {pid : UInt32} {pids : List UInt32}
    (hm : m'.map Prod.fst = unbound m [pid])
    (hpid : pid ∉ pids) : unbound (m ++ m') pids = unbound m pids := by
  refine List.filter_congr fun q hq => ?_
  have hne : q ≠ pid := fun heq => hpid (heq ▸ hq)
  have hno : q ∉ m'.map Prod.fst := by
    rw [hm]
    exact fun hmem => hne (List.mem_singleton.mp (List.mem_of_mem_filter hmem))
  rw [List.map_append, decide_eq_decide, List.mem_append, not_or, and_iff_left hno]

theorem scan_spec {names : List Bytes} (h : Scanned l m ps ns) (hdistinct : (pidsRead names).Nodup)
    (hps : ps.length + (pidsRead names).length ≤ 2 ^ 31) (hns : ns.length + (pidsRead names).length ≤ 2 ^ 31) :
    ∃ l' m', scan proc fresh names l = (.ok (), l') ∧
      Scanned l' (m ++ m') (ps ++ pidsRead names) (ns ++ unbound m (pidsRead names)) ∧
      m'.map Prod.fst = unbound m (pidsRead names) ∧ SameRest l l' ∧
      l'.events = l.events ++ told l.listener .started (unbound m (pidsRead names)) := by
  induction names generalizing l m ps ns with
  | nil =>
    refine ⟨l, [], rfl, ?_, rfl, ⟨rfl, rfl, rfl⟩, ?_⟩
    · simpa [pidsRead, unbound] using h
    · unfold told
      split <;> exact (List.append_nil _).symm
  | cons d_name names ih =>
    cases hnum : numeric d_name with
    | false =>
      have hread : pidsRead (d_name :: names) = pidsRead names := by
        rw [pidsRead, List.filter_cons, hnum]
        rfl
      rw [hread] at hdistinct hps hns ⊢
      obtain ⟨l', m', hrun, hrest⟩ := ih h hdistinct hps hns
      refine ⟨l', m', ?_, hrest⟩
      rw [scan, hnum]
      exact hrun
    | true =>
      have hread : pidsRead (d_name :: names) = Bytes.uint d_name 10 :: pidsRead names := by
        rw [pidsRead, List.filter_cons, hnum]
        rfl
      generalize hpid : Bytes.uint d_name 10 = pid at hread
      rw [hread] at hdistinct hps hns ⊢
      obtain ⟨hnotin, hdistinct⟩ := List.nodup_cons.mp hdistinct
      rw [List.length_cons] at hps hns
      obtain ⟨l₁, m₁, hvisit, hscanned, hm₁, hsame₁, hevents₁⟩ := visit_spec fresh proc h (by omega) (by omega) pid
      have hlen : (unbound m [pid]).length ≤ 1 := List.length_filter_le _ _
      obtain ⟨l₂, m₂, hrun, hscanned₂, hm₂, hsame₂, hevents₂⟩ := ih hscanned hdistinct
        (by rw [List.length_append, List.length_singleton]; omega) (by rw [List.length_append]; omega)
      have hsplit : unbound m (pid :: pidsRead names) = unbound m [pid] ++ unbound m (pidsRead names) :=
        List.filter_append [pid] (pidsRead names)
      rw [unbound_append hm₁ hnotin] at hscanned₂ hm₂ hevents₂
      refine ⟨l₂, m₁ ++ m₂, ?_, ?_, ?_, ⟨?_, ?_, ?_⟩, ?_⟩
      · rw [scan, hnum, if_pos rfl, hpid, bind_ok hvisit]
        exact hrun
      · rw [hsplit]
        simpa only [List.append_assoc, List.singleton_append] using hscanned₂
      · rw [List.map_append, hm₁, hm₂, hsplit]
      · exact hsame₂.listener.trans hsame₁.listener
      · exact hsame₂.last_update.trans hsame₁.last_update
      · exact hsame₂.dead_pids.trans hsame₁.dead_pids
      · rw [hevents₂, hevents₁, hsame₁.listener, hsplit, told_append, List.append_assoc]

end ProcessList

end Srl
