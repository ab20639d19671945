import Srl.FSMakeDir

namespace Srl.FS

open Bytes FileTree Session Posix

variable {k k' k₁ k₂ : Kernel} {src dst path : Bytes} {d p q s : Path} {m n : Name} {x : Node UInt32 Item}
  {rounds : Nat} {umask modes : UInt32} {verb : Bytes} {replace_existing : Bool}

/-- The modes of the copy of a directory: its owner may search it if others could, and others may write to it if its
owner could. -/
def copiedModes (modes : UInt32) : UInt32 :=
  modesOf (modes &&& 0o400 ≠ 0) (modes &&& 0o200 ≠ 0) (modes &&& 0o001 ≠ 0) (modes &&& 0o040 ≠ 0) (modes &&& 0o020 ≠ 0)
    (modes &&& 0o010 ≠ 0) (modes &&& 0o004 ≠ 0)

theorem flags_iff (modes r w x : UInt32) :
    ((flagIf modes r 4 ||| flagIf modes w 2 ||| flagIf modes x 1) &&& 4 ≠ 0 ↔ modes &&& r ≠ 0) ∧
    ((flagIf modes r 4 ||| flagIf modes w 2 ||| flagIf modes x 1) &&& 2 ≠ 0 ↔ modes &&& w ≠ 0) ∧
    ((flagIf modes r 4 ||| flagIf modes w 2 ||| flagIf modes x 1) &&& 1 ≠ 0 ↔ modes &&& x ≠ 0) := by
  have hflags : ∀ a b c : Bool,
      (((if a then 4 else 0) ||| (if b then 2 else 0) ||| (if c then 1 else 0) : UInt8) &&& 4 ≠ 0 ↔ a) ∧
      (((if a then 4 else 0) ||| (if b then 2 else 0) ||| (if c then 1 else 0) : UInt8) &&& 2 ≠ 0 ↔ b) ∧
      (((if a then 4 else 0) ||| (if b then 2 else 0) ||| (if c then 1 else 0) : UInt8) &&& 1 ≠ 0 ↔ c) := by decide
  have hmodes := hflags (modes &&& r ≠ 0) (modes &&& w ≠ 0) (modes &&& x ≠ 0)
  simp only [decide_eq_true_eq] at hmodes
  exact hmodes

theorem permissionsToModes_modesToPermissions (modes : UInt32) :
    PermissionsToModes (ModesToPermissions modes) = copiedModes modes := by
  obtain ⟨owner_read, owner_write, owner_execute⟩ := flags_iff modes 0o400 0o200 1
  obtain ⟨group_read, group_write, group_execute⟩ := flags_iff modes 0o040 0o020 0o010
  obtain ⟨other_read, -, -⟩ := flags_iff modes 0o004 0o002 0o001
  rw [permissionsToModes_eq]
  unfold ModesToPermissions copiedModes
  simp only [owner_read, owner_write, owner_execute, group_read, group_write, group_execute, other_read]

/-- What the copy of an entry is. -/
def copied (umask : UInt32) : Node UInt32 Item → Node UInt32 Item
  | .dir modes => .dir (copiedModes modes)
  | .leaf (.file _ data) => .leaf (.file (0o666 &&& ~~~umask) data)
  | .leaf (.link target) => .leaf (.link target)

theorem copyLoop_eq {unread written : Bytes} (h : unread.length < rounds) :
    copyLoop rounds unread written = written ++ unread := by
  induction rounds generalizing unread written with
  | zero => cases h
  | succ rounds ih =>
    rw [copyLoop]
    split
    next hnil =>
      have hunread : unread = [] := by
        cases unread with
        | nil => rfl
        | cons b unread => cases hnil
      rw [hunread, List.append_nil]
    next hne =>
      have hlt : (unread.drop 4096).length < rounds := by
        have hpos : 0 < unread.length := List.length_pos_iff.mpr fun hnil => hne (by rw [hnil, List.take_nil])
        rw [List.length_drop]
        omega
      rw [ih hlt, List.append_assoc, List.take_append_drop]

/-- The entries under `q` are copies of those under `p`, and all others are as they were. -/
structure Grafted (umask : UInt32) (p q : Path) (k k' : Kernel) : Prop where
  cwd : k'.cwd = k.cwd
  copy : ∀ r, k'.disk.node (q ++ r) = (k.disk.node (p ++ r)).map (copied umask)
  kept : ∀ s, ¬q <+: s → k'.disk.node s = k.disk.node s

theorem Grafted.le {umask : UInt32} (h : Grafted umask p (d ++ [n]) k k') (hn : k.disk.node (d ++ [n]) = none) :
    k.disk ≤ k'.disk := by
  intro s x hs
  by_cases hsub : d ++ [n] <+: s
  · rw [node_of_free hn hsub] at hs
    cases hs
  · rwa [h.kept s hsub]

theorem clear_free (hsrc : k.stat src = some x)
    (hdst : k.place false dst (components dst) = some (.free d n)) :
    clear verb src dst replace_existing k = (.ok (), k) := by
  have hexists : Exists k src = true := by
    rw [Exists, hsrc]
    rfl
  have hfind : k.find true dst = none := by
    rw [Kernel.find, Kernel.place_follow hdst]
  have hnot : Exists k dst = false := by
    rw [Exists, Kernel.stat, hfind]
    rfl
  rw [clear, get_bind, hexists, hnot]
  rfl

theorem store_run {written data : Bytes} (hx : k.disk.node p = some (.leaf (.file modes written))) :
    ∃ k', k.store p data = some k' ∧ k'.cwd = k.cwd ∧ k'.umask = k.umask ∧
      ∀ s, k'.disk.node s = if s = p then some (.leaf (.file modes data)) else k.disk.node s := by
  unfold Kernel.store
  split
  next modes' written' hp =>
    obtain ⟨rfl, -⟩ := Item.file.inj (Node.leaf.inj (Option.some.inj (hp.symm.trans hx)))
    exact ⟨_, rfl, rfl, rfl, fun s => node_assign ⟨_, hp⟩⟩
  next hp => exact absurd hx (hp modes written)

/-- The copy of a file. -/
theorem copyFile_run {data : Bytes} (hsrc : k.stat src = some (.leaf (.file modes data)))
    (hdst : k.place false dst (components dst) = some (.free d n)) :
    ∃ k', copyFile src dst k = (.ok (), k') ∧ k'.cwd = k.cwd ∧ k'.umask = k.umask ∧
      ∀ s, k'.disk.node s = if s = d ++ [n] then some (.leaf (.file (0o666 &&& ~~~k.umask) data))
        else k.disk.node s := by
  have hread : k.openRead src = some data := by rw [Kernel.openRead, hsrc]
  have hplace := Kernel.place_follow hdst
  obtain ⟨hdir, hnone⟩ := (Kernel.place_iff.mp hplace).2.free_inv
  have hopen : k.openWrite dst = some (d ++ [n],
      { k with disk := k.disk.add d n (.leaf (.file (0o666 &&& ~~~k.umask) [])) hdir hnone }) := by
    unfold Kernel.openWrite
    rw [hplace]
    exact dif_pos ⟨hdir, hnone⟩
  obtain ⟨k', hstore, hcwd, humask, hnode⟩ := @store_run
    { k with disk := k.disk.add d n (.leaf (.file (0o666 &&& ~~~k.umask) [])) hdir hnone } (d ++ [n])
      (0o666 &&& ~~~k.umask) []
    data (by rw [node_add, if_pos rfl])
  refine ⟨k', ?_, hcwd, humask, fun s => ?_⟩
  · unfold copyFile
    simp only [hread, hopen, copyLoop_eq (Nat.lt_add_one data.length), List.nil_append, hstore]
  · rw [hnode s, node_add]
    split <;> rfl

theorem getPermissions_dir (hsrc : k.stat src = some (.dir modes)) :
    GetPermissions src k = (.ok (ModesToPermissions modes), k) := by
  rw [GetPermissions, get_bind, hsrc]
  rfl

/-- What a `Copy` of entries so many names deep to a free name comes to. -/
def Copies (rounds : Nat) : Prop := ∀ (k : Kernel) (src dst : Bytes) (p d : Path) (n : Name),
  (∀ b ∈ src, b ≠ 0) → (∀ b ∈ dst, b ≠ 0) → k.find true src = some p →
    k.place false dst (components dst) = some (.free d n) → ¬p <+: d → LinkFree k p → Shallow k p rounds →
      ∃ k', Copy rounds src dst false k = (.ok (), k') ∧
        Grafted (if k.disk.isDir p then 0 else k.umask) p (d ++ [n]) k k' ∧
          k'.umask = if k.disk.isDir p then 0 else k.umask

/-- The entries under names of `q` are copies of those under the same names of `p`. -/
structure Grafts (ns : List Name) (p q : Path) (k k' : Kernel) : Prop where
  cwd : k'.cwd = k.cwd
  umask : k'.umask = 0
  copy : ∀ m ∈ ns, ∀ r, k'.disk.node (q ++ m :: r) = (k.disk.node (p ++ m :: r)).map (copied 0)
  kept : ∀ s, (∀ m ∈ ns, ¬q ++ [m] <+: s) → k'.disk.node s = k.disk.node s

/-- Paths below entries of which none is below the other. -/
theorem not_below_other (hpq : ¬p <+: q) (hqp : ¬q <+: p) (r : Path) : ¬q <+: p ++ r := by
  intro hsub
  rcases List.prefix_or_prefix_of_prefix hsub (List.prefix_append p r) with h | h
  · exact hqp h
  · exact hpq h

theorem not_below_sibling {r : Path} (h : m ≠ n) : ¬q ++ [n] <+: q ++ m :: r := by
  intro hsub
  rw [List.prefix_append_right_inj, List.cons_prefix_cons] at hsub
  exact h hsub.1.symm

theorem not_same_slash_dots (n : Name) :
    ¬(Bytes.same (bytes "/" ++ n.1) (bytes "/.") = true ∨ Bytes.same (bytes "/" ++ n.1) (bytes "/..") = true) := by
  have hname : cstr (bytes "/" ++ n.1) = 47 :: n.1 := by
    have hslash : ∀ b ∈ bytes "/", b ≠ 0 := by decide
    rw [cstr_append_of_ne hslash, cstr_name]
    rfl
  have hdot : cstr (bytes "/.") = [47, 46] := by decide
  have hdots : cstr (bytes "/..") = [47, 46, 46] := by decide
  unfold Bytes.same
  rw [hname, hdot, hdots, decide_eq_true_eq, decide_eq_true_eq, List.cons_inj_right, List.cons_inj_right]
  rintro (h | h)
  · exact n.2.2.1 h
  · exact n.2.2.2.1 h

theorem copyChildren_dots (copy : Bytes → Method Kernel Thrown Unit) (children : List Bytes) :
    copyChildren copy ([46] :: [46, 46] :: children) = copyChildren copy children := by
  rw [copyChildren, if_pos (by decide), copyChildren, if_pos (by decide)]

theorem copyChildren_graft {ns : List Name} (ih : Copies rounds) (hsrcz : ∀ b ∈ src, b ≠ 0) (hdstz : ∀ b ∈ dst, b ≠ 0)
    (hnd : ns.Nodup) (hsrc : k.find true src = some p) (hdst : k.find true dst = some q) (hdir : k.disk.isDir q = true)
    (humask : k.umask = 0) (hout : ¬p <+: q) (hin : ¬q <+: p)
    (hnames : ∀ m ∈ ns, (k.disk.node (p ++ [m])).isSome = true)
    (hfree : ∀ m ∈ ns, k.disk.node (q ++ [m]) = none) (hlinks : LinkFree k p) (hdeep : Shallow k p (rounds + 1)) :
    ∃ k', copyChildren (fun path => Copy rounds (src ++ path) (dst ++ path) false) (ns.map Subtype.val) k =
      (.ok (), k') ∧
      Grafts ns p q k k' := by
  induction ns generalizing k with
  | nil => exact ⟨k, rfl, rfl, humask, fun _ hm => absurd hm List.not_mem_nil, fun _ _ => rfl⟩
  | cons m ns hns =>
    obtain ⟨hm, hnd⟩ := List.nodup_cons.mp hnd
    obtain ⟨x, hx⟩ := Option.isSome_iff_exists.mp (hnames m List.mem_cons_self)
    have hmfree := hfree m List.mem_cons_self
    obtain ⟨k₁, hcopy, hgraft, humask₁⟩ := ih k _ _ _ q m (child_ne_zero hsrcz m) (child_ne_zero hdstz m)
      (Kernel.find_child hsrcz hsrc hx (hlinks [m] x (List.cons_ne_nil m []) hx))
      (Kernel.place_child_free hdstz hdst hdir hmfree)
      (fun hsub => hout ((List.prefix_append p [m]).trans hsub)) (hlinks.snoc m) (hdeep.snoc m)
    rw [humask, ite_self] at hgraft humask₁
    have hle := hgraft.le hmfree
    have hsame : ∀ r, k₁.disk.node (p ++ r) = k.disk.node (p ++ r) := fun r =>
      hgraft.kept _ fun hsub => not_below_other hout hin r ((List.prefix_append q [m]).trans hsub)
    obtain ⟨k', hloop, hrest⟩ := @hns k₁ hnd (Kernel.find_mono hle hgraft.cwd hsrc)
      (Kernel.find_mono hle hgraft.cwd hdst)
      (isDir_mono hle hdir) humask₁
      (fun j hj => by rw [hsame]; exact hnames j (List.mem_cons_of_mem m hj))
      (fun j hj => by
        rw [hgraft.kept _ (not_below_sibling fun he => hm (he ▸ hj))]
        exact hfree j (List.mem_cons_of_mem m hj))
      (fun r y hr hy => hlinks r y hr (by rwa [hsame] at hy)) (fun r hr => hdeep r (by rwa [hsame] at hr))
    refine ⟨k', ?_, hrest.cwd.trans hgraft.cwd, hrest.umask, fun j hj r => ?_, fun s hs => ?_⟩
    · rw [List.map_cons, copyChildren, if_neg (not_same_slash_dots m)]
      exact (bind_ok hcopy).trans hloop
    · rcases List.mem_cons.mp hj with rfl | hj
      · have hothers : ∀ i ∈ ns, ¬q ++ [i] <+: q ++ j :: r := fun i hi => not_below_sibling fun he => hm (he ▸ hi)
        have hcopied := hgraft.copy r
        rw [List.append_assoc, List.append_assoc] at hcopied
        exact (hrest.kept _ hothers).trans hcopied
      · rw [hrest.copy j hj r, hsame]
    · rw [hrest.kept s fun j hj => hs j (List.mem_cons_of_mem m hj), hgraft.kept s (hs m List.mem_cons_self)]

/-- The copy of a file, which has nothing below it. -/
theorem copy_file {data : Bytes} (hsrc : k.find true src = some p)
    (hx : k.disk.node p = some (.leaf (.file modes data)))
    (hdst : k.place false dst (components dst) = some (.free d n)) :
    ∃ k', Copy (rounds + 1) src dst false k = (.ok (), k') ∧ Grafted k.umask p (d ++ [n]) k k' ∧
      k'.umask = k.umask := by
  have hstat := stat_eq hsrc hx
  have hdir : k.disk.isDir p = false := by rw [isDir, hx]
  obtain ⟨-, hnone⟩ := (Kernel.place_iff.mp hdst).2.free_inv
  obtain ⟨k', hcopy, hcwd, humask, hnode⟩ := copyFile_run hstat hdst
  refine ⟨k', ?_, ⟨hcwd, fun r => ?_, fun s hs => ?_⟩, humask⟩
  · rw [Copy, bind_ok (clear_free hstat hdst), get_bind]
    simp only [IsDir, IsFile, hstat, Bool.false_eq_true, if_false, if_true]
    exact hcopy
  · rw [hnode]
    by_cases hr : r = []
    · rw [hr, List.append_nil, List.append_nil, if_pos rfl, hx]
      rfl
    · rw [if_neg fun he => hr (List.append_right_eq_self.mp he), node_of_free hnone (List.prefix_append _ r)]
      cases hbelow : k.disk.node (p ++ r) with
      | none => rfl
      | some y =>
        rw [isDir_of_append hbelow hr] at hdir
        cases hdir
  · rw [hnode, if_neg fun he : s = d ++ [n] => hs (he ▸ List.prefix_rfl)]

/-- The copy of a directory, as one of the entries in it. -/
theorem copy_dir (ih : Copies rounds) (hsrcz : ∀ b ∈ src, b ≠ 0) (hdstz : ∀ b ∈ dst, b ≠ 0)
    (hsrc : k.find true src = some p) (hx : k.disk.node p = some (.dir modes))
    (hdst : k.place false dst (components dst) = some (.free d n)) (hout : ¬p <+: d) (hlinks : LinkFree k p)
    (hdeep : Shallow k p (rounds + 1)) :
    ∃ k', Copy (rounds + 1) src dst false k = (.ok (), k') ∧ Grafted 0 p (d ++ [n]) k k' ∧ k'.umask = 0 := by
  have hstat := stat_eq hsrc hx
  obtain ⟨-, hnone⟩ := (Kernel.place_iff.mp hdst).2.free_inv
  obtain ⟨k₁, hmake, hcwd, humask, hnode⟩ := @makeDirOnly_run k dst d n (some (ModesToPermissions modes))
    (by rw [Kernel.trim_of_free hdst, hdst])
  have hmodes : makeModes (some (ModesToPermissions modes)) = copiedModes modes :=
    permissionsToModes_modesToPermissions modes
  rw [hmodes] at hnode
  have hself : k₁.disk.node (d ++ [n]) = some (.dir (copiedModes modes)) := by rw [hnode, if_pos rfl]
  have hother : ∀ s, s ≠ d ++ [n] → k₁.disk.node s = k.disk.node s := fun s hs => by rw [hnode, if_neg hs]
  have hle : k.disk ≤ k₁.disk := by
    intro s y hs
    by_cases he : s = d ++ [n]
    · rw [he, hnone] at hs
      cases hs
    · rwa [hother s he]
  have hin : ¬d ++ [n] <+: p := by
    intro hsub
    rw [node_of_free hnone hsub] at hx
    cases hx
  have hout : ¬p <+: d ++ [n] := by
    intro hsub
    rcases List.prefix_concat_iff.mp hsub with he | hsub
    · exact hin (he ▸ List.prefix_rfl)
    · exact hout hsub
  have hsame : ∀ r, k₁.disk.node (p ++ r) = k.disk.node (p ++ r) := fun r =>
    hother _ fun he => not_below_other hout hin r (he ▸ List.prefix_rfl)
  have hempty : ∀ m r, k₁.disk.node (d ++ [n] ++ m :: r) = none := by
    intro m r
    rw [hother _ (by simp)]
    exact node_of_free hnone (List.prefix_append _ _)
  have hsrc₁ := Kernel.find_mono hle hcwd hsrc
  have hdir₁ : k₁.disk.isDir p = true := isDir_mono hle (isDir_iff.mpr ⟨modes, hx⟩)
  obtain ⟨k', hloop, hgrafts⟩ := @copyChildren_graft k₁ src dst p (d ++ [n]) rounds _ ih hsrcz hdstz (nodup_names _ p)
    hsrc₁ (Kernel.find_of_free hle hcwd hdst hself (not_linked_dir _)) (isDir_iff.mpr ⟨_, hself⟩) humask hout hin
    (fun m hm => mem_names.mp hm) (fun m _ => hempty m []) (fun r y hr hy => hlinks r y hr (by rwa [hsame] at hy))
    (fun r hr => hdeep r (by rwa [hsame] at hr))
  refine ⟨k', ?_, ⟨hgrafts.cwd.trans hcwd, fun r => ?_, fun s hs => ?_⟩, hgrafts.umask⟩
  · rw [Copy, bind_ok (clear_free hstat hdst), get_bind]
    simp only [IsDir, hstat, if_true]
    rw [bind_ok (getPermissions_dir hstat), bind_ok hmake, get_bind, readdir_eq hsrc₁ hdir₁]
    simp only [copyChildren_dots]
    exact hloop
  · cases r with
    | nil =>
      rw [List.append_nil, List.append_nil, hgrafts.kept _ fun m _ => not_below m fun _ => rfl, hself, hx]
      rfl
    | cons m r =>
      by_cases hm : m ∈ k₁.disk.names p
      · rw [hgrafts.copy m hm r, hsame]
      · have hgone : k.disk.node (p ++ [m]) = none := by
          rw [← hsame]
          simpa [mem_names] using hm
        rw [hgrafts.kept _ fun j hj => not_below_sibling fun he : m = j => hm (he ▸ hj), hempty,
          node_of_free hgone ⟨r, by simp⟩]
        rfl
  · rw [hgrafts.kept s fun m _ hsub => hs ((List.prefix_append _ _).trans hsub),
      hother s fun he : s = d ++ [n] => hs (he ▸ List.prefix_rfl)]

/-- A `Copy` to a free name, from an entry with no links below it that the name is not below. -/
theorem copies (rounds : Nat) : Copies rounds := by
  induction rounds with
  | zero =>
    intro k src dst p d n _ _ hsrc _ _ _ hdeep
    have hlen := hdeep [] (by rw [List.append_nil]; exact Kernel.find_isSome hsrc)
    cases hlen
  | succ rounds ih =>
    intro k src dst p d n hsrcz hdstz hsrc hdst hout hlinks hdeep
    obtain ⟨x, hx⟩ := Option.isSome_iff_exists.mp (Kernel.find_isSome hsrc)
    rcases x with modes | ⟨modes, data⟩ | target
    · rw [if_pos (isDir_iff.mpr ⟨modes, hx⟩)]
      exact copy_dir ih hsrcz hdstz hsrc hx hdst hout hlinks hdeep
    · rw [if_neg (by rw [isDir, hx]; exact Bool.false_ne_true)]
      exact copy_file hsrc hx hdst
    · exact absurd ⟨target, rfl⟩ (Kernel.find_not_linked hsrc _ hx)

/-- What was under `p` is under `q`, and all other entries are as they were. -/
structure Moved (p q : Path) (k k' : Kernel) : Prop where
  cwd : k'.cwd = k.cwd
  umask : k'.umask = k.umask
  moved : ∀ r, k'.disk.node (q ++ r) = k.disk.node (p ++ r)
  gone : ∀ s, p <+: s → ¬q <+: s → k'.disk.node s = none
  kept : ∀ s, ¬p <+: s → ¬q <+: s → k'.disk.node s = k.disk.node s

theorem rename_run (hsrc : k.entry src = some p) (hp : p ≠ [])
    (hdst : k.place false dst (components dst) = some (.free d n))
    (hout : ¬p <+: d) : ∃ k', k.rename src dst = some k' ∧ Moved p (d ++ [n]) k k' := by
  obtain ⟨hdir, hnone⟩ := (Kernel.place_iff.mp hdst).2.free_inv
  obtain ⟨m, hlast⟩ := (Kernel.place_iff.mp hdst).2.last_name
  have htrim := Kernel.trim_of_free hdst
  have hmove : k.moveTo p d n = some { k with disk := k.disk.move p d n hp hdir hnone hout } :=
    dif_pos ⟨hp, hdir, hnone, hout⟩
  refine ⟨{ k with disk := k.disk.move p d n hp hdir hnone hout }, ?_, rfl, rfl, fun r => ?_, fun s hs hns => ?_,
    fun s hs hns => ?_⟩
  · unfold Kernel.rename
    rw [hsrc, htrim, hlast]
    simp only [or_true, if_true, hdst]
    exact hmove
  · exact node_move_append hp hdir hnone hout
  · rw [node_move, if_neg hns, if_pos hs]
  · rw [node_move, if_neg hns, if_neg hs]

/-- The kernel without an entry and what is below it. -/
def pruned (k : Kernel) (q : Path) (hq : q ≠ []) : Kernel := { k with disk := k.disk.prune q hq }

theorem pruned_le (hq : q ≠ []) : (pruned k q hq).disk ≤ k.disk := prune_le hq

/-- A `Delete` that is not recursive takes away a file and an empty directory. -/
theorem delete_plain (hq : q ≠ []) (hfind : k.find true path = some q) (hentry : k.entry path = some q)
    (hnone : k.disk.names q = []) : ∃ r, Delete 1 path false k = (.ok r, pruned k q hq) := by
  obtain ⟨x, hx⟩ := Option.isSome_iff_exists.mp (Kernel.find_isSome hfind)
  have hstat := stat_eq hfind hx
  have hremove := remove_eq hentry hq hnone
  cases x with
  | leaf item => exact ⟨1, delete_leaf hstat (by rw [IsDir, hstat]) hremove⟩
  | dir modes =>
    refine ⟨0, ?_⟩
    have hread := readdir_eq hfind (isDir_iff.mpr ⟨modes, hx⟩)
    rw [hnone] at hread
    have hexists : Exists k path = true := by
      rw [Exists, hstat]
      rfl
    have hdir : IsDir k path = true := by rw [IsDir, hstat]
    rw [Delete, get_bind, hexists, hdir, hread]
    simp only [Bool.not_true, Bool.false_eq_true, if_false, List.map_nil, deleteChildren_dots]
    show (Except.ok 0, (k.remove path).getD k) = _
    rw [hremove]
    rfl

/-- What is under the path of the copy is deleted first. -/
theorem clear_replace (hq : q ≠ []) (hexists : Exists k src = true) (hfind : k.find true dst = some q)
    (hentry : k.entry dst = some q) (hnone : k.disk.names q = []) :
    clear verb src dst true k = (.ok (), pruned k q hq) := by
  obtain ⟨x, hx⟩ := Option.isSome_iff_exists.mp (Kernel.find_isSome hfind)
  have hdst : Exists k dst = true := by
    rw [Exists, stat_eq hfind hx]
    rfl
  obtain ⟨r, hdelete⟩ := delete_plain hq hfind hentry hnone
  rw [clear, get_bind, hexists, hdst]
  simp only [Bool.not_true, Bool.false_eq_true, if_false, if_true]
  rw [bind_ok hdelete]
  rfl

/-- Nothing is found any more under a path to what was deleted. -/
theorem find_pruned {f : Bool} (hq : q ≠ []) (hfind : k.find f path = some q) : (pruned k q hq).find f path = none := by
  by_contra hsome
  obtain ⟨p, hp⟩ := Option.ne_none_iff_exists'.mp hsome
  have heq : p = q := Option.some.inj ((Kernel.find_mono (pruned_le hq) rfl hp).symm.trans hfind)
  have hnode := Kernel.find_isSome hp
  rw [heq, pruned, node_prune, if_pos List.prefix_rfl] at hnode
  cases hnode

theorem entry_pruned (hq : q ≠ []) (hentry : k.entry path = some q) : (pruned k q hq).entry path = none := by
  by_contra hsome
  obtain ⟨p, hp⟩ := Option.ne_none_iff_exists'.mp hsome
  have heq : p = q := Option.some.inj ((Kernel.entry_mono (pruned_le hq) rfl hp).symm.trans hentry)
  have hnode := Kernel.entry_isSome hp
  rw [heq, pruned, node_prune, if_pos List.prefix_rfl] at hnode
  cases hnode

/-- A `Move` of a file onto itself deletes it. -/
theorem move_onto_itself (hq : q ≠ []) (hsrc : k.find true src = some q) (hentry : k.entry src = some q)
    (hdst : k.find true dst = some q) (hentry' : k.entry dst = some q) (hnone : k.disk.names q = []) :
    Move src dst true k = (.error .errno, pruned k q hq) := by
  obtain ⟨x, hx⟩ := Option.isSome_iff_exists.mp (Kernel.find_isSome hsrc)
  have hexists : Exists k src = true := by
    rw [Exists, stat_eq hsrc hx]
    rfl
  have hrename : (pruned k q hq).rename src dst = none := by
    unfold Kernel.rename
    rw [entry_pruned hq hentry]
  rw [Move, bind_ok (clear_replace hq hexists hdst hentry' hnone)]
  exact perform_none hrename

/-- A `Copy` of a file onto itself deletes it, and returns. -/
theorem copy_onto_itself (hq : q ≠ []) (hsrc : k.find true src = some q) (hdst : k.find true dst = some q)
    (hentry : k.entry dst = some q) (hnone : k.disk.names q = []) :
    Copy (rounds + 1) src dst true k = (.ok (), pruned k q hq) := by
  obtain ⟨x, hx⟩ := Option.isSome_iff_exists.mp (Kernel.find_isSome hsrc)
  have hexists : Exists k src = true := by
    rw [Exists, stat_eq hsrc hx]
    rfl
  have hstat : (pruned k q hq).stat src = none := by
    rw [Kernel.stat, find_pruned hq hsrc]
    rfl
  rw [Copy, bind_ok (clear_replace hq hexists hdst hentry hnone), get_bind]
  simp only [IsDir, IsFile, hstat, Bool.false_eq_true, if_false]
  rfl

theorem copy_onto_itself_sample :
    Copy 1 (bytes "/b") (bytes "/a/../b") true sample = (.ok (), pruned sample [nameB] (by decide)) :=
  copy_onto_itself (by decide) (by decide) (by decide) (by decide) (by decide)

/-- A `Move` to a free name. -/
theorem move_run (hexists : Exists k src = true) (hsrc : k.entry src = some p) (hp : p ≠ [])
    (hdst : k.place false dst (components dst) = some (.free d n)) (hout : ¬p <+: d) :
    ∃ k', Move src dst replace_existing k = (.ok (), k') ∧ Moved p (d ++ [n]) k k' := by
  obtain ⟨x, hx⟩ := Option.isSome_iff_exists.mp hexists
  obtain ⟨k', hrename, hmoved⟩ := rename_run hsrc hp hdst hout
  refine ⟨k', ?_, hmoved⟩
  rw [Move, bind_ok (clear_free hx hdst)]
  exact perform_eq hrename

end Srl.FS
