import Srl.ProcessListScan

namespace Srl

open Session Dictionary SearchTree

namespace ProcessList

variable {Status : Type} {l : ProcessList Status} {t : BinTree Color} {xs ys : List Ptr} {ps ds : List UInt32}
  (fresh : ProcessList Status → Nat → UInt32)

/-- The bindings whose pids were read. -/
def alive (ps : List UInt32) (m : List (UInt32 × Ptr)) : List (UInt32 × Ptr) := m.filter fun b => b.1 ∈ ps

/-- The pids of the other ones. -/
def dead (ps : List UInt32) (m : List (UInt32 × Ptr)) : List UInt32 := (m.map Prod.fst).filter fun pid => pid ∉ ps

theorem entry_eq {iter : Ptr} {e : Entry UInt32 Ptr} (he : l.list.heap iter = some e) : entry iter l = (.ok e, l) := by
  unfold entry
  rw [get_bind, he]
  rfl

/-- What holds in the sweep, which has come from `xs` to `ys`. -/
structure Sweeping (l : ProcessList Status) (t : BinTree Color) (xs ys : List Ptr) (ps ds : List UInt32) : Prop where
  shape : Shape l.list t (xs ++ ys)
  owned : Owned l (l.list.contents (xs ++ ys))
  pids : l.pids.Grows ps
  dead_pids : l.dead_pids.Grows ds

/-- The sweep goes past the process of a pid that was read. -/
theorem Sweeping.skip {a : Ptr} (h : Sweeping l t xs (a :: ys) ps ds) : Sweeping l t (xs ++ [a]) ys ps ds := by
  have happend : xs ++ [a] ++ ys = xs ++ a :: ys := List.append_assoc xs [a] ys
  refine ⟨?_, ?_, h.pids, h.dead_pids⟩
  · rw [happend]
    exact h.shape
  · rw [happend]
    exact h.owned

/-- The fields that the sweep leaves alone. -/
structure SameRead (l l' : ProcessList Status) : Prop where
  pids : l'.pids = l.pids
  new_pids : l'.new_pids = l.new_pids
  listener : l'.listener = l.listener
  last_update : l'.last_update = l.last_update

theorem removeProcess_spec {a : Ptr} {e : Entry UInt32 Ptr} (h : Sweeping l t xs (a :: ys) ps ds)
    (he : l.list.heap a = some e) (hds : ds.length ≤ 2 ^ 31) :
    ∃ l' t', removeProcess fresh a e.value l = (.ok (ys.head?.getD NULL), l') ∧
      Sweeping l' t' xs ys ps (ds ++ [e.key]) ∧ l'.list.contents xs = l.list.contents xs ∧
      l'.list.contents ys = l.list.contents ys ∧ SameRead l l' ∧
      l'.events = l.events ++ told l.listener .stopped [e.key] := by
  have hcontents : l.list.contents (xs ++ a :: ys) = l.list.contents xs ++ (e.key, e.value) :: l.list.contents ys := by
    rw [contents_append, contents_cons he]
  have howned := h.owned
  rw [hcontents] at howned
  obtain ⟨p, hp, hpid⟩ := howned.process (e.key, e.value) (by simp)
  obtain ⟨d', t', hremove, hshape, hxs, hys⟩ := h.shape.removeIterator_spec
  have hnotify := notify_eq .stopped hp
  rw [hpid] at hnotify
  let l₁ : ProcessList Status := { l with events := l.events ++ told l.listener .stopped [e.key] }
  obtain ⟨v, hadd, hdead⟩ := @addTo_spec _ l₁ dead_pids (fun v l => { l with dead_pids := v })
    ds fresh h.dead_pids hds p.pid
  rw [hpid] at hadd hdead
  let l₂ : ProcessList Status := { l₁ with dead_pids := v }
  let l₃ : ProcessList Status := { l₂ with heap := Function.update l.heap e.value none }
  have hload : load e.value l₁ = (.ok p, l₁) := load_eq hp
  have hdelete : deleteProcess e.value l₂ = (.ok (), l₃) := by
    unfold deleteProcess
    rw [bind_ok (load_eq (show l₂.heap e.value = some p from hp))]
    rfl
  have hentry : removeEntry a l₃ = (.ok (ys.head?.getD NULL), { l₃ with list := d' }) := by
    unfold removeEntry
    rw [get_bind, show l₃.list.removeIterator a = _ from hremove]
    rfl
  refine ⟨{ l₃ with list := d' }, t', ?_, ⟨hshape, ?_, h.pids, hdead⟩, hxs, hys, ⟨rfl, rfl, rfl, rfl⟩, rfl⟩
  · unfold removeProcess
    rw [bind_ok hnotify, bind_ok hload, hpid, bind_ok hadd, bind_ok hdelete]
    exact hentry
  · show Owned _ (d'.contents (xs ++ ys))
    rw [contents_append, hxs, hys]
    exact howned.drop.congr rfl rfl

/-- The sweep removes the processes that are gone, in their order, and leaves the others. -/
theorem removeDeadLoop_spec {fuel : Nat} (h : Sweeping l t xs ys ps ds) (hfuel : ys.length < fuel)
    (hps : ps.length ≤ 2 ^ 31) (hds : ds.length + ys.length ≤ 2 ^ 31) :
    ∃ l' t' zs, removeDeadLoop fresh fuel (ys.head?.getD NULL) l = (.ok (), l') ∧
      Sweeping l' t' (xs ++ zs) [] ps (ds ++ dead ps (l.list.contents ys)) ∧
      l'.list.contents (xs ++ zs) = l.list.contents xs ++ alive ps (l.list.contents ys) ∧ SameRead l l' ∧
      l'.events = l.events ++ told l.listener .stopped (dead ps (l.list.contents ys)) := by
  induction ys generalizing l t xs ds fuel with
  | nil =>
    obtain ⟨fuel, rfl⟩ := Nat.exists_eq_add_of_lt hfuel
    refine ⟨l, t, [], ?_, ?_, ?_, ⟨rfl, rfl, rfl, rfl⟩, ?_⟩
    · rw [List.length_nil, Nat.zero_add, removeDeadLoop]
      rfl
    · simpa [dead] using h
    · simp [alive]
    · simp [dead, told]
  | cons a ys ih =>
    obtain ⟨fuel, rfl⟩ := Nat.exists_eq_add_of_lt hfuel
    obtain ⟨e, he, hnext, hnull⟩ := h.shape.entry_next
    have hcontains : onPids (Vector.containsValue e.key) l = (.ok (decide (e.key ∈ ps)), l) :=
      part_eq (h.pids.holds.containsValue_eq hps e.key)
    rw [List.length_cons] at hds
    have hfuel : ys.length < (a :: ys).length + fuel := by
      rw [List.length_cons]
      omega
    rw [contents_cons he]
    by_cases hread : e.key ∈ ps
    · obtain ⟨l', t', zs, hrun, hsweep, hcontents, hsame, hevents⟩ := ih h.skip hfuel (by omega)
      have hdead : dead ps ((e.key, e.value) :: l.list.contents ys) = dead ps (l.list.contents ys) := by
        simp [dead, hread]
      have happend : xs ++ [a] ++ zs = xs ++ a :: zs := List.append_assoc xs [a] zs
      rw [happend] at hsweep hcontents
      rw [hdead]
      refine ⟨l', t', a :: zs, ?_, hsweep, ?_, hsame, hevents⟩
      · rw [List.head?_cons, Option.getD_some, removeDeadLoop, if_neg hnull, bind_ok (entry_eq he), bind_ok hcontains,
          if_pos (decide_eq_true hread), hnext]
        exact hrun
      · rw [hcontents, contents_append, contents_cons he]
        simp [alive, hread]
    · obtain ⟨l₁, t₁, hremove, hsweep₁, hxs, hys, hsame₁, hevents₁⟩ := removeProcess_spec fresh h he (by omega)
      obtain ⟨l', t', zs, hrun, hsweep, hcontents, hsame, hevents⟩ := ih hsweep₁ hfuel (by
        rw [List.length_append, List.length_singleton]
        omega)
      have hdead : dead ps ((e.key, e.value) :: l.list.contents ys) = [e.key] ++ dead ps (l.list.contents ys) := by
        simp [dead, hread]
      rw [hys] at hsweep hcontents hevents
      rw [hdead]
      refine ⟨l', t', zs, ?_, ?_, ?_, ⟨?_, ?_, ?_, ?_⟩, ?_⟩
      · rw [List.head?_cons, Option.getD_some, removeDeadLoop, if_neg hnull, bind_ok (entry_eq he), bind_ok hcontains,
          if_neg (by simpa using hread), bind_ok hremove]
        exact hrun
      · rw [← List.append_assoc]
        exact hsweep
      · rw [hcontents, hxs]
        simp [alive, hread]
      · exact hsame.pids.trans hsame₁.pids
      · exact hsame.new_pids.trans hsame₁.new_pids
      · exact hsame.listener.trans hsame₁.listener
      · exact hsame.last_update.trans hsame₁.last_update
      · rw [hevents, hevents₁, hsame₁.listener, told_append, List.append_assoc]

variable {l' : ProcessList Status} {m : List (UInt32 × Ptr)}

theorem remove_dead_spec (hl : Represents l.list m) (ho : Owned l m) (hp : l.pids.Grows ps) (hd : l.dead_pids.Holds ds)
    (hinit : l.dead_pids.init_size = 32) (hps : ps.length ≤ 2 ^ 31) (hm : m.length ≤ 2 ^ 31) :
    ∃ l', remove_dead fresh l = (.ok (), l') ∧ Represents l'.list (alive ps m) ∧ Owned l' (alive ps m) ∧
      l'.dead_pids.Grows (dead ps m) ∧ SameRead l l' ∧
        l'.events = l.events ++ told l.listener .stopped (dead ps m) := by
  obtain ⟨t, order, hS, rfl⟩ := hl
  obtain ⟨v, hclear, hgrows⟩ := @clearAll_spec _ l dead_pids (fun v l => { l with dead_pids := v }) _ fresh hd hinit
  rw [hS.length_contents] at hm
  obtain ⟨l', t', zs, hrun, hsweep, hcontents, hsame, hevents⟩ :=
    @removeDeadLoop_spec _ { l with dead_pids := v } t [] order ps []
    fresh _ ⟨hS, ho.congr rfl rfl, hp, hgrows⟩ hS.length_lt hps (by simpa using hm)
  have hshape := hsweep.shape
  have howned := hsweep.owned
  rw [List.append_nil, List.nil_append] at hshape howned
  rw [List.nil_append] at hcontents
  rw [hcontents] at howned
  refine ⟨l', ?_, ⟨t', zs, hshape, hcontents.symm⟩, howned, hsweep.dead_pids,
    ⟨hsame.pids, hsame.new_pids, hsame.listener,
    hsame.last_update⟩, hevents⟩
  unfold remove_dead
  rw [get_bind, bind_ok hclear, hS.begin_eq]
  exact hrun

/-- A vector of the default initial size, whatever is in it. -/
def Tidy (v : Vector UInt32) : Prop := v.init_size = 32 ∧ ∃ xs, v.Holds xs

/-- What holds between any two calls. A pid is a `pid_t`, which is an `int`. -/
structure Valid (l : ProcessList Status) (m : List (UInt32 × Ptr)) : Prop where
  represents : Represents l.list m
  owned : Owned l m
  pid_t : ∀ b ∈ m, b.1.toNat < 2 ^ 31
  pids : Tidy l.pids
  new_pids : Tidy l.new_pids
  dead_pids : Tidy l.dead_pids

/-- There are 2³¹ pids. -/
theorem length_pids_le {pids : List UInt32} (hn : pids.Nodup) (hpid : ∀ pid ∈ pids, pid.toNat < 2 ^ 31) :
    pids.length ≤ 2 ^ 31 := by
  have hinj : (pids.map UInt32.toNat).Nodup := hn.map fun _ _ => UInt32.toNat_inj.mp
  have hsub : pids.map UInt32.toNat ⊆ List.range (2 ^ 31) := fun k hk => by
    obtain ⟨pid, hmem, rfl⟩ := List.mem_map.mp hk
    exact List.mem_range.mpr (hpid pid hmem)
  have hle := (hinj.subperm hsub).length_le
  rwa [List.length_map, List.length_range] at hle

theorem keys_nodup (h : Represents l.list m) : (m.map Prod.fst).Nodup :=
  List.pairwise_map.mpr (h.distinct.imp fun hne heq => hne (congrArg Hasher.hash heq))

theorem length_le (h : Represents l.list m) (hm : ∀ b ∈ m, b.1.toNat < 2 ^ 31) : m.length ≤ 2 ^ 31 := by
  have hle := length_pids_le (keys_nodup h) fun pid hpid => by
    obtain ⟨b, hb, rfl⟩ := List.mem_map.mp hpid
    exact hm b hb
  rwa [List.length_map] at hle

theorem Tidy.of_grows {v : Vector UInt32} {xs : List UInt32} (h : v.Grows xs) : Tidy v := ⟨h.init_size_eq, xs, h.holds⟩

variable (proc : Proc Status) {cur_time : ℚ} {names : List Bytes}

/-- What the directory can list: processes, each once. -/
structure Listing (names : List Bytes) : Prop where
  nodup : (pidsRead names).Nodup
  pid_t : ∀ pid ∈ pidsRead names, pid.toNat < 2 ^ 31

theorem dead_append {m' : List (UInt32 × Ptr)} (hm : m'.map Prod.fst = unbound m ps) :
    dead ps (m ++ m') = dead ps m := by
  unfold dead
  rw [List.map_append, hm, List.filter_append]
  have hnone : (unbound m ps).filter (fun pid => pid ∉ ps) = [] := List.filter_eq_nil_iff.mpr fun pid hpid => by
    simpa using List.mem_of_mem_filter hpid
  rw [hnone, List.append_nil]

theorem refresh_spec (h : Valid l m) (hnames : Listing names) (htime : 1 ≤ cur_time - l.last_update) :
    ∃ l' m', refresh proc fresh cur_time (some names) l = (.ok (), l') ∧ Valid l' (alive (pidsRead names) (m ++ m')) ∧
      m'.map Prod.fst = unbound m (pidsRead names) ∧ l'.new_pids.Grows (unbound m (pidsRead names)) ∧
      l'.dead_pids.Grows (dead (pidsRead names) m) ∧
      l'.events = l.events ++ told l.listener .started (unbound m (pidsRead names)) ++
        told l.listener .stopped (dead (pidsRead names) m) := by
  have hlen := length_pids_le hnames.nodup hnames.pid_t
  obtain ⟨hinit₁, xs₁, hpids⟩ := h.pids
  obtain ⟨hinit₂, xs₂, hnew⟩ := h.new_pids
  obtain ⟨hinit₃, xs₃, hdead⟩ := h.dead_pids
  let l₁ : ProcessList Status := { l with last_update := cur_time }
  obtain ⟨v, hclear, hgrows⟩ := @clearAll_spec _ l₁ pids (fun v l => { l with pids := v }) _ fresh hpids hinit₁
  let l₂ : ProcessList Status := { l₁ with pids := v }
  obtain ⟨w, hclear', hgrows'⟩ := @clearAll_spec _ l₂ new_pids (fun v l => { l with new_pids := v }) _ fresh hnew hinit₂
  let l₃ : ProcessList Status := { l₂ with new_pids := w }
  obtain ⟨l₄, m', hscan, hscanned, hm', hsame, hevents⟩ := @scan_spec _ l₃ m [] [] fresh proc names
    ⟨h.represents, h.owned.congr rfl rfl, hgrows, hgrows'⟩ hnames.nodup (by simpa using hlen) (by simpa using hlen)
  rw [List.nil_append, List.nil_append] at hscanned
  have hpid_t : ∀ b ∈ m ++ m', b.1.toNat < 2 ^ 31 := by
    intro b hb
    rcases List.mem_append.mp hb with hb | hb
    · exact h.pid_t b hb
    · have hread : b.1 ∈ m'.map Prod.fst := List.mem_map_of_mem hb
      rw [hm'] at hread
      exact hnames.pid_t _ (List.mem_of_mem_filter hread)
  obtain ⟨l₅, hremove, hlist, howned, hgrows₅, hsame₅, hevents₅⟩ :=
    remove_dead_spec fresh hscanned.represents hscanned.owned
    hscanned.pids (hsame.dead_pids ▸ hdead) (hsame.dead_pids ▸ hinit₃) hlen (length_le hscanned.represents hpid_t)
  rw [dead_append hm'] at hgrows₅ hevents₅
  have hnews : l₅.new_pids.Grows (unbound m (pidsRead names)) := hsame₅.new_pids ▸ hscanned.new_pids
  refine ⟨l₅, m', ?_, ⟨hlist, howned, fun b hb => hpid_t b (List.mem_of_mem_filter hb), ?_, .of_grows hnews,
    .of_grows hgrows₅⟩, hm', hnews, hgrows₅, ?_⟩
  · unfold refresh
    rw [get_bind, if_neg (not_lt.mpr htime), modify_bind]
    dsimp only
    rw [bind_ok hclear, bind_ok hclear', bind_ok hscan]
    exact hremove
  · rw [hsame₅.pids]
    exact .of_grows hscanned.pids
  · rw [hevents₅, hevents, hsame.listener]

/-- A vector as its constructor makes it. -/
def Made (v : Vector UInt32) : Prop :=
  ∃ fresh : Nat → UInt32, Vector.resizeValues fresh 32 (Vector.empty 32) = (.ok (), v)

theorem Made.tidy {v : Vector UInt32} (h : Made v) : Tidy v := by
  obtain ⟨fresh, hrun⟩ := h
  obtain ⟨v', hv', hholds, hinit⟩ := @Vector.newValues_holds _ fresh 32 (by decide)
  rw [hrun] at hv'
  cases hv'
  exact ⟨hinit, [], hholds⟩

/-- The process lists that can come up: a constructed one, before its first `refresh`; one whose listener is
set; one whose callers have changed the vectors that `newPids` and `deadPids` give away; and what a `refresh`
leaves, be it one that returns at once, one that throws or one that reads the directory. -/
inductive Reached : ProcessList Status → Prop
  | made (last_update : ℚ) {pids new_pids dead_pids : Vector UInt32} (hp : Made pids) (hn : Made new_pids)
    (hd : Made dead_pids) : Reached ⟨fun _ => none, 1, .empty, false, [], last_update, pids, new_pids, dead_pids⟩
  | setListener {l : ProcessList Status} (h : Reached l) (listener : Bool) : Reached { l with listener := listener }
  | changed {l : ProcessList Status} (h : Reached l) {new_pids dead_pids : Vector UInt32} (hn : Tidy new_pids)
    (hd : Tidy dead_pids) : Reached { l with new_pids := new_pids, dead_pids := dead_pids }
  | refreshed {l l' : ProcessList Status} {r : Except Thrown Unit} (h : Reached l)
    (fresh : ProcessList Status → Nat → UInt32) (proc : Proc Status) {cur_time : ℚ} {parent : Option (List Bytes)}
    (hnames : ∀ names, parent = some names → Listing names) (run : refresh proc fresh cur_time parent l = (r, l')) :
    Reached l'

theorem Reached.valid (h : Reached l) : ∃ m, Valid l m := by
  induction h with
  | made last_update hp hn hd =>
    exact ⟨[], represents_empty, ⟨nofun, List.nodup_nil, nofun, nofun, Nat.one_pos⟩, nofun, hp.tidy, hn.tidy, hd.tidy⟩
  | setListener h listener ih =>
    obtain ⟨m, hv⟩ := ih
    exact ⟨m, hv.represents, hv.owned.congr rfl rfl, hv.pid_t, hv.pids, hv.new_pids, hv.dead_pids⟩
  | changed h hn hd ih =>
    obtain ⟨m, hv⟩ := ih
    exact ⟨m, hv.represents, hv.owned.congr rfl rfl, hv.pid_t, hv.pids, hn, hd⟩
  | @refreshed l l' r h fresh proc cur_time parent hnames run ih =>
    obtain ⟨m, hv⟩ := ih
    by_cases htime : cur_time - l.last_update < 1
    · unfold refresh at run
      rw [get_bind, if_pos htime] at run
      cases run
      exact ⟨m, hv⟩
    · cases parent with
      | none =>
        unfold refresh at run
        rw [get_bind, if_neg htime, modify_bind] at run
        cases run
        exact ⟨m, hv.represents, hv.owned.congr rfl rfl, hv.pid_t, hv.pids, hv.new_pids, hv.dead_pids⟩
      | some names =>
        obtain ⟨l₁, m', hrun, hvalid, -⟩ := refresh_spec fresh proc hv (hnames names rfl) (not_lt.mp htime)
        rw [hrun] at run
        cases run
        exact ⟨_, hvalid⟩

theorem mem_alive {m' : List (UInt32 × Ptr)} {pid : UInt32} (hm : m'.map Prod.fst = unbound m ps) :
    pid ∈ (alive ps (m ++ m')).map Prod.fst ↔ pid ∈ ps := by
  have halive : (alive ps (m ++ m')).map Prod.fst = ((m ++ m').map Prod.fst).filter (fun q => q ∈ ps) := by
    rw [alive, List.filter_map]
    rfl
  rw [halive, List.mem_filter, decide_eq_true_eq, and_iff_right_iff_imp, List.map_append, hm]
  intro hpid
  by_cases hold : pid ∈ m.map Prod.fst
  · exact List.mem_append_left _ hold
  · exact List.mem_append_right _ (List.mem_filter.mpr ⟨hpid, decide_eq_true hold⟩)

/-- A `refresh` that reads the directory leaves the processes of the pids that it has read; the new and the
dead pids are each found once, and a listener is told of them and of nothing else. -/
theorem refresh_agrees (h : Reached l) (hnames : Listing names) (htime : 1 ≤ cur_time - l.last_update) :
    ∃ l', refresh proc fresh cur_time (some names) l = (.ok (), l') ∧
      l'.list.keys.Nodup ∧ (∀ pid, pid ∈ l'.list.keys ↔ pid ∈ pidsRead names) ∧
      (∀ pid, l'.list.hasKey pid = some (decide (pid ∈ pidsRead names))) ∧
      l'.new_pids.values = (pidsRead names).filter (fun pid => pid ∉ l.list.keys) ∧ l'.new_pids.values.Nodup ∧
      l'.dead_pids.values = l.list.keys.filter (fun pid => pid ∉ pidsRead names) ∧ l'.dead_pids.values.Nodup ∧
      l'.events = l.events ++
        if l.listener then l'.new_pids.values.map .started ++ l'.dead_pids.values.map .stopped else [] := by
  obtain ⟨m, hv⟩ := h.valid
  obtain ⟨l', m', hrun, hvalid, hm', hnew, hdead, hevents⟩ := refresh_spec fresh proc hv hnames htime
  have hkeys := hv.represents.keys_eq
  have hkeys' := hvalid.represents.keys_eq
  have hnews : l'.new_pids.values = unbound m (pidsRead names) := hnew.holds.elements
  have hdeads : l'.dead_pids.values = dead (pidsRead names) m := hdead.holds.elements
  refine ⟨l', hrun, ?_⟩
  rw [hkeys, hkeys', hnews, hdeads]
  refine ⟨keys_nodup hvalid.represents, fun pid => mem_alive hm', fun pid => ?_, rfl, hnames.nodup.filter _, rfl,
    (keys_nodup hv.represents).filter _, ?_⟩
  · rw [hasKey_spec hvalid.represents, Option.some_inj, Bool.eq_iff_iff, has_iff_mem, mem_alive hm', decide_eq_true_eq]
  · rw [hevents]
    unfold told
    split
    next => rw [List.append_assoc]
    next => rw [List.append_nil]

/-- The first `refresh` with a listener, when the directory lists two processes and another file. -/
theorem refresh_agrees_first : ∃ l l' : ProcessList Unit,
    refresh ⟨fun _ => (), fun _ _ => ()⟩ (fun _ _ => 0) 5 (some [bytes "12", bytes "self", bytes "7"]) l =
      (.ok (), l') ∧
      l'.new_pids.values = [12, 7] ∧ l'.events = [.started 12, .started 7] := by
  have hread : pidsRead [bytes "12", bytes "self", bytes "7"] = [12, 7] := by decide +kernel
  let v : Vector UInt32 := (Vector.resizeValues (fun _ => 0) 32 (Vector.empty 32)).2
  have hv : Made v := ⟨fun _ => 0, Prod.ext (by decide +kernel) rfl⟩
  have hsmall : ∀ pid ∈ [(12 : UInt32), 7], pid.toNat < 2 ^ 31 :=
    List.forall_mem_cons.mpr ⟨by decide, List.forall_mem_cons.mpr ⟨by decide, nofun⟩⟩
  have hnames : Listing [bytes "12", bytes "self", bytes "7"] := ⟨by rw [hread]; decide, by rw [hread]; exact hsmall⟩
  obtain ⟨l', hrun, -, -, -, hnew, -, hdead, -, hevents⟩ := refresh_agrees (fun _ _ => 0) ⟨fun _ => (), fun _ _ => ()⟩
    ((Reached.made 0 hv hv hv).setListener true) hnames (by decide +kernel : (1 : ℚ) ≤ 5 - 0)
  rw [hread] at hnew hdead
  rw [show l'.new_pids.values = [12, 7] from hnew, show l'.dead_pids.values = [] from hdead] at hevents
  exact ⟨_, l', hrun, hnew, hevents⟩

end ProcessList

end Srl
