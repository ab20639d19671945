import Srl.FS

namespace Srl.FS

open Bytes FileTree Session Posix

variable {k k' k₁ k₂ : Kernel} {path : Bytes} {d p q : Path} {n : Name} {x : Node UInt32 Item} {rounds total : Nat}
  {gone gone' : Path → Prop}

/-- All entries are as they were but those of certain paths, which are gone. -/
structure Without (gone : Path → Prop) (k k' : Kernel) : Prop where
  cwd : k'.cwd = k.cwd
  umask : k'.umask = k.umask
  absent : ∀ q, gone q → k'.disk.node q = none
  kept : ∀ q, ¬gone q → k'.disk.node q = k.disk.node q

theorem Without.le (h : Without gone k k') : k'.disk ≤ k.disk := by
  intro q x hq
  by_cases hg : gone q
  · rw [h.absent q hg] at hq
    cases hq
  · rwa [h.kept q hg] at hq

theorem Without.trans (h₁ : Without gone k k₁) (h₂ : Without gone' k₁ k₂) :
    Without (fun q => gone q ∨ gone' q) k k₂ where
  cwd := h₂.cwd.trans h₁.cwd
  umask := h₂.umask.trans h₁.umask
  absent q hq := by
    by_cases hg : gone' q
    · exact h₂.absent q hg
    · exact (h₂.kept q hg).trans (h₁.absent q (hq.resolve_right hg))
  kept q hq := by
    obtain ⟨hg, hg'⟩ := not_or.mp hq
    exact (h₂.kept q hg').trans (h₁.kept q hg)

theorem Without.congr (h : Without gone k k') (hiff : ∀ q, (k.disk.node q).isSome = true → (gone q ↔ gone' q)) :
    Without gone' k k' where
  cwd := h.cwd
  umask := h.umask
  absent q hq := by
    by_cases hsome : (k.disk.node q).isSome = true
    · exact h.absent q ((hiff q hsome).mpr hq)
    · rw [Option.isSome_iff_ne_none, not_not] at hsome
      by_cases hg : gone q
      · exact h.absent q hg
      · rw [h.kept q hg, hsome]
  kept q hq := by
    by_cases hsome : (k.disk.node q).isSome = true
    · exact h.kept q fun hg => hq ((hiff q hsome).mp hg)
    · rw [Option.isSome_iff_ne_none, not_not] at hsome
      by_cases hg : gone q
      · rw [h.absent q hg, hsome]
      · exact h.kept q hg

/-- The kernel whose disk has nothing below an entry. -/
def emptied (k : Kernel) (p : Path) : Kernel := { k with disk := k.disk.strip p }

theorem without_prune (hp : p ≠ []) : Without (p <+: ·) k { k with disk := k.disk.prune p hp } where
  cwd := rfl
  umask := rfl
  absent q hq := by rw [node_prune, if_pos hq]
  kept q hq := by rw [node_prune, if_neg hq]

theorem append_slash (path name : Bytes) : path ++ bytes "/" ++ name = path ++ 47 :: name := by
  rw [List.append_assoc]
  rfl

/-- Where a name is free, nothing is below it. -/
theorem node_of_free (hn : k.disk.node (d ++ [n]) = none) (hq : d ++ [n] <+: q) : k.disk.node q = none := by
  obtain ⟨r, rfl⟩ := hq
  by_contra hsome
  obtain ⟨x, hx⟩ := Option.ne_none_iff_exists'.mp hsome
  by_cases hr : r = []
  · rw [hr, List.append_nil, hn] at hx
    cases hx
  · obtain ⟨m, hm⟩ := isDir_iff.mp (isDir_of_append hx hr)
    rw [hn] at hm
    cases hm

theorem names_of_not_dir (h : k.disk.isDir p = false) : k.disk.names p = [] := by
  apply List.eq_nil_iff_forall_not_mem.mpr
  intro n hn
  obtain ⟨x, hx⟩ := Option.isSome_iff_exists.mp (mem_names.mp hn)
  rw [isDir_of_snoc hx] at h
  cases h

theorem stat_eq (hfind : k.find true path = some p) (hx : k.disk.node p = some x) : k.stat path = some x := by
  rw [Kernel.stat, hfind]
  exact hx

theorem remove_eq (hentry : k.entry path = some p) (hp : p ≠ []) (hnone : k.disk.names p = []) :
    k.remove path = some { k with disk := k.disk.prune p hp } := by
  rw [Kernel.remove, hentry]
  exact dif_pos ⟨hp, hnone⟩

theorem perform_eq {call : Kernel → Option Kernel} (h : call k = some k') : perform call k = (.ok (), k') := by
  rw [perform, h]

theorem perform_none {call : Kernel → Option Kernel} (h : call k = none) : perform call k = (.error .errno, k) := by
  rw [perform, h]

theorem not_same_dots (n : Name) : ¬(Bytes.same n.1 (bytes ".") = true ∨ Bytes.same n.1 (bytes "..") = true) := by
  have hdot : cstr (bytes ".") = [46] := by decide
  have hdots : cstr (bytes "..") = [46, 46] := by decide
  unfold Bytes.same
  rw [cstr_name, hdot, hdots, decide_eq_true_eq, decide_eq_true_eq]
  rintro (h | h)
  · exact n.2.2.1 h
  · exact n.2.2.2.1 h

/-- A file, or a link to one. -/
theorem delete_leaf {recursive : Bool} (hstat : k.stat path = some x) (hx : IsDir k path = false)
    (hremove : k.remove path = some k') : Delete (rounds + 1) path recursive k = (.ok 1, k') := by
  have hexists : Exists k path = true := by
    rw [Exists, hstat]
    rfl
  rw [Delete, get_bind, hexists, hx]
  exact bind_ok (perform_eq hremove)

/-- A directory whose entries can all be deleted. -/
theorem delete_dir {children : List Bytes} (hdir : IsDir k path = true) (hread : k.readdir path = some children)
    (hloop : deleteChildren (fun child => Delete rounds (path ++ bytes "/" ++ child) true) true children 0 k =
      (.ok total, k₁)) : Delete (rounds + 1) path true k = (.ok 0, (k₁.remove path).getD k₁) := by
  have hexists : Exists k path = true := by
    unfold IsDir at hdir
    unfold Exists
    cases hstat : k.stat path with
    | none =>
      rw [hstat] at hdir
      cases hdir
    | some x => rfl
  rw [Delete, get_bind, hexists, hdir, hread]
  simp only [Bool.not_true, Bool.false_eq_true, if_false]
  rw [bind_ok hloop]
  rfl

/-- From an entry on nothing is so many names deep. -/
def Shallow (k : Kernel) (p : Path) (rounds : Nat) : Prop :=
    ∀ r, (k.disk.node (p ++ r)).isSome = true → r.length < rounds

/-- Below an entry there are no links. -/
def LinkFree (k : Kernel) (p : Path) : Prop := ∀ r x, r ≠ [] → k.disk.node (p ++ r) = some x → ¬Linked x

theorem LinkFree.mono (h : LinkFree k p) (hle : k'.disk ≤ k.disk) : LinkFree k' p := fun r x hr hx =>
  h r x hr (hle _ _ hx)

theorem LinkFree.snoc (h : LinkFree k p) (n : Name) : LinkFree k (p ++ [n]) := by
  intro r x _ hx
  rw [List.append_assoc] at hx
  exact h _ x (List.cons_ne_nil _ _) hx

theorem Shallow.mono (h : Shallow k p rounds) (hle : k'.disk ≤ k.disk) : Shallow k' p rounds := by
  intro r hr
  obtain ⟨x, hx⟩ := Option.isSome_iff_exists.mp hr
  exact h r (by rw [hle _ _ hx]; rfl)

theorem Shallow.snoc (h : Shallow k p (rounds + 1)) (n : Name) : Shallow k (p ++ [n]) rounds := by
  intro r hr
  rw [List.append_assoc] at hr
  have := h _ hr
  rw [List.length_append, List.length_singleton] at this
  omega

theorem node_emptied (k : Kernel) (p q : Path) :
    (emptied k p).disk.node q = if p <+: q → q = p then k.disk.node q else none := node_strip

theorem emptied_le : (emptied k p).disk ≤ k.disk := strip_le

/-- Where what is not below `p` is kept, emptying leaves no less. -/
theorem emptied_mono (h : ∀ q, (p <+: q → q = p) → k'.disk.node q = k.disk.node q) :
    (emptied k p).disk ≤ (emptied k' p).disk := by
  intro q x hq
  rw [node_emptied] at hq ⊢
  split at hq
  next hkeep => rwa [if_pos hkeep, h q hkeep]
  next => cases hq

theorem not_below (n : Name) (h : p <+: q → q = p) : ¬p ++ [n] <+: q := by
  intro hsub
  have hlen := hsub.length_le
  rw [h ((List.prefix_append p [n]).trans hsub), List.length_append, List.length_singleton] at hlen
  omega

theorem emptied_le_snoc (n : Name) : (emptied k p).disk ≤ (emptied k (p ++ [n])).disk := by
  intro q x hq
  rw [node_emptied] at hq ⊢
  split at hq
  next hkeep => rwa [if_pos fun hsub => absurd hsub (not_below n hkeep)]
  next => cases hq

theorem readdir_eq (hfind : k.find true path = some p) (hdir : k.disk.isDir p = true) :
    k.readdir path = some ([46] :: [46, 46] :: (k.disk.names p).map Subtype.val) := by
  rw [Kernel.readdir, hfind]
  exact if_pos hdir

/-- The dots that `readdir` gives are passed over. -/
theorem deleteChildren_dots (delete : Bytes → Method Kernel Thrown Nat) (recursive : Bool) (children : List Bytes) :
    deleteChildren delete recursive ([46] :: [46, 46] :: children) total =
      deleteChildren delete recursive children total := by
  rw [deleteChildren, if_pos (by decide), deleteChildren, if_pos (by decide)]

theorem Shallow.pos (h : Shallow k p rounds) (hp : ((emptied k p).disk.node p).isSome = true) : 0 < rounds := by
  obtain ⟨x, hx⟩ := Option.isSome_iff_exists.mp hp
  exact h [] (by rw [List.append_nil, emptied_le _ _ hx]; rfl)

theorem not_linked_of_entries (h : ∀ e ∈ k.disk.entries, ¬Linked e.2) (hx : k.disk.node p = some x) : ¬Linked x :=
  h _ (node_iff.mp hx)

theorem linkFree_of_entries (h : ∀ e ∈ k.disk.entries, ¬Linked e.2) : LinkFree k p := fun _ _ _ hx =>
  not_linked_of_entries h hx

theorem shallow_of_entries (h : ∀ e ∈ k.disk.entries, e.1.length < rounds) : Shallow k p rounds := by
  intro r hr
  obtain ⟨x, hx⟩ := Option.isSome_iff_exists.mp hr
  have hlen := h _ (node_iff.mp hx)
  rw [List.length_append] at hlen
  omega

theorem child_ne_zero (hpath : ∀ b ∈ path, b ≠ 0) (n : Name) : ∀ b ∈ path ++ 47 :: n.1, b ≠ 0 := by
  intro b hb
  rcases List.mem_append.mp hb with hb | hb
  · exact hpath b hb
  · rcases List.mem_cons.mp hb with rfl | hb
    · decide
    · exact fun he => n.2.2.2.2.2 (he ▸ hb)

/-- What a recursive `Delete` of entries so many names deep comes to. -/
def Deletes (rounds : Nat) : Prop := ∀ (k : Kernel) (path : Bytes) (p : Path), (∀ b ∈ path, b ≠ 0) → p ≠ [] →
  (emptied k p).entry path = some p → (∀ x, k.disk.node p = some x → ¬Linked x) → LinkFree k p → Shallow k p rounds →
    ∃ r k', Delete rounds path true k = (.ok r, k') ∧ Without (p <+: ·) k k'

theorem deleteChildren_tree {ns : List Name} (ih : Deletes rounds) (hpath : ∀ b ∈ path, b ≠ 0) (hnd : ns.Nodup)
    (hfind : (emptied k p).find true path = some p) (hnames : ∀ n ∈ ns, (k.disk.node (p ++ [n])).isSome = true)
    (hlinks : LinkFree k p) (hdeep : Shallow k p (rounds + 1)) :
    ∃ k', deleteChildren (fun child => Delete rounds (path ++ bytes "/" ++ child) true) true
      (ns.map Subtype.val) total k =
      (.ok (total + ns.length), k') ∧ Without (fun q => ∃ n ∈ ns, p ++ [n] <+: q) k k' := by
  induction ns generalizing k total with
  | nil =>
    refine ⟨k, rfl, rfl, rfl, fun q hq => ?_, fun _ _ => rfl⟩
    obtain ⟨n, hn, -⟩ := hq
    cases hn
  | cons n ns hns =>
    obtain ⟨hn, hnd⟩ := List.nodup_cons.mp hnd
    obtain ⟨x, hx⟩ := Option.isSome_iff_exists.mp (hnames n List.mem_cons_self)
    have hentry : (emptied k (p ++ [n])).entry (path ++ 47 :: n.1) = some (p ++ [n]) := by
      refine Kernel.entry_child hpath (Kernel.find_mono (emptied_le_snoc n) rfl hfind) (x := x) ?_
      rw [node_emptied, if_pos fun _ => rfl]
      exact hx
    obtain ⟨r, k₁, hdelete, hwithout⟩ := ih k _ _ (child_ne_zero hpath n) (by simp) hentry
      (fun y => hlinks [n] y (List.cons_ne_nil n [])) (hlinks.snoc n) (hdeep.snoc n)
    have hle : (emptied k p).disk ≤ (emptied k₁ p).disk :=
      emptied_mono fun q hkeep => hwithout.kept q (not_below n hkeep)
    have hnames₁ : ∀ m ∈ ns, (k₁.disk.node (p ++ [m])).isSome = true := by
      intro m hm
      rw [hwithout.kept _ fun hsub => ?_]
      · exact hnames m (List.mem_cons_of_mem n hm)
      · have heq := hsub.eq_of_length (by simp)
        rw [List.append_cancel_left_eq, List.cons.injEq] at heq
        exact hn (heq.1 ▸ hm)
    obtain ⟨k', hloop, hrest⟩ := @hns k₁ (total + 1) hnd (Kernel.find_mono hle hwithout.cwd hfind) hnames₁
      (hlinks.mono hwithout.le) (hdeep.mono hwithout.le)
    refine ⟨k', ?_, (hwithout.trans hrest).congr fun q _ => by simp⟩
    rw [List.map_cons, deleteChildren, if_neg (not_same_dots n), if_pos rfl]
    rw [← append_slash] at hdelete
    rw [bind_ok hdelete, hloop, List.length_cons, Nat.add_right_comm, Nat.add_assoc]

/-- Where all entries of a directory are gone, nothing is below it. -/
theorem without_names (h : Without (fun q => ∃ n ∈ k.disk.names p, p ++ [n] <+: q) k k') :
    Without (fun q => p <+: q ∧ q ≠ p) k k' := by
  refine h.congr fun q hq => ⟨?_, fun hbelow => exists_name hq hbelow.1 hbelow.2⟩
  rintro ⟨n, -, hsub⟩
  exact ⟨(List.prefix_append p [n]).trans hsub, fun he => not_below n (fun _ => he) hsub⟩

/-- A recursive `Delete` of a path that leads to `p`, and whose last name stands for `e`. -/
theorem delete_emptied {e : Path} (ih : Deletes rounds) (hpath : ∀ b ∈ path, b ≠ 0) (he : e ≠ [])
    (hfind : (emptied k p).find true path = some p) (hentry : (emptied k p).entry path = some e) (hlinks : LinkFree k p)
    (hdeep : Shallow k p (rounds + 1)) :
    ∃ r k', Delete (rounds + 1) path true k = (.ok r, k') ∧ Without (fun q => e <+: q ∨ p <+: q ∧ q ≠ p) k k' := by
  obtain ⟨x, hx⟩ := Option.isSome_iff_exists.mp (Kernel.find_isSome hfind)
  have hx := emptied_le _ _ hx
  have hfind₀ : k.find true path = some p := Kernel.find_mono emptied_le rfl hfind
  have hstat := stat_eq hfind₀ hx
  have hentry₀ : k.entry path = some e := Kernel.entry_mono emptied_le rfl hentry
  have hsame : e = p ∨ k.disk.isDir e = false := by
    obtain ⟨y, hy⟩ := Option.isSome_iff_exists.mp (Kernel.entry_isSome hentry₀)
    by_cases hlink : Linked y
    · obtain ⟨target, rfl⟩ := hlink
      exact .inr (by rw [isDir, hy])
    · have hfollow := Kernel.find_of_entry hentry₀ fun z hz => by rwa [← Option.some.inj (hy.symm.trans hz)]
      exact .inl (Option.some.inj (hfollow.symm.trans hfind₀))
  cases x with
  | leaf item =>
    have hdir : k.disk.isDir p = false := by rw [isDir, hx]
    have hdirs : k.disk.isDir e = false := hsame.elim (fun h => h ▸ hdir) id
    refine ⟨1, _, delete_leaf hstat (by rw [IsDir, hstat]) (remove_eq hentry₀ he (names_of_not_dir hdirs)), ?_⟩
    refine (without_prune he).congr fun q hq => ⟨.inl, ?_⟩
    rintro (h | ⟨⟨r, rfl⟩, hne⟩)
    · exact h
    · obtain ⟨y, hy⟩ := Option.isSome_iff_exists.mp hq
      rw [isDir_of_append hy fun hr => hne (by rw [hr, List.append_nil])] at hdir
      cases hdir
  | dir modes =>
    have hdir : k.disk.isDir p = true := isDir_iff.mpr ⟨modes, hx⟩
    obtain ⟨k₁, hloop, hwithout⟩ := @deleteChildren_tree k path p rounds 0 _ ih hpath (nodup_names _ _) hfind
      (fun n hn => mem_names.mp hn) hlinks hdeep
    have hwithout := without_names hwithout
    have hle : (emptied k p).disk ≤ k₁.disk := by
      intro q y hq
      rw [node_emptied] at hq
      split at hq
      next hkeep => rwa [hwithout.kept q fun hsub => hsub.2 (hkeep hsub.1)]
      next => cases hq
    have hnone : k₁.disk.names e = [] := by
      rcases hsame with rfl | hleaf
      · apply List.eq_nil_iff_forall_not_mem.mpr
        intro n hn
        rw [mem_names, hwithout.absent (e ++ [n]) ⟨List.prefix_append e [n], by simp⟩] at hn
        cases hn
      · apply names_of_not_dir
        cases hdir₁ : k₁.disk.isDir e with
        | false => rfl
        | true => rw [isDir_mono hwithout.le hdir₁] at hleaf; cases hleaf
    have hremove := remove_eq (Kernel.entry_mono hle hwithout.cwd hentry) he hnone
    refine ⟨0, _, delete_dir (by rw [IsDir, hstat]) (readdir_eq hfind₀ hdir)
      ((deleteChildren_dots _ _ _).symm ▸ hloop), ?_⟩
    rw [hremove]
    exact (hwithout.trans (without_prune he)).congr fun q _ => or_comm

theorem deletes (rounds : Nat) : Deletes rounds := by
  induction rounds with
  | zero => exact fun k path p _ _ hentry _ _ hdeep => absurd (hdeep.pos (Kernel.entry_isSome hentry)) (Nat.lt_irrefl 0)
  | succ rounds ih =>
    intro k path p hpath hp hentry hlink hlinks hdeep
    have hfind := Kernel.find_of_entry hentry fun y hy => hlink y (emptied_le _ _ hy)
    obtain ⟨r, k', hdelete, hwithout⟩ := delete_emptied ih hpath hp hfind hentry hlinks hdeep
    refine ⟨r, k', hdelete, hwithout.congr fun q _ => ⟨?_, .inl⟩⟩
    rintro (h | h)
    · exact h
    · exact h.1

/-- A recursive `Delete` empties the directory that its path leads to, and takes away what the last name of the path
stands for, if the path does not lead through that directory and no links are below it. -/
theorem delete_recursive {e : Path} (hpath : ∀ b ∈ path, b ≠ 0) (he : e ≠ [])
    (hfind : (emptied k p).find true path = some p) (hentry : (emptied k p).entry path = some e) (hlinks : LinkFree k p)
    (hdeep : Shallow k p rounds) :
    ∃ r k', Delete rounds path true k = (.ok r, k') ∧ Without (fun q => e <+: q ∨ p <+: q ∧ q ≠ p) k k' := by
  cases rounds with
  | zero => exact absurd (hdeep.pos (Kernel.find_isSome hfind)) (Nat.lt_irrefl 0)
  | succ rounds => exact delete_emptied (deletes rounds) hpath he hfind hentry hlinks hdeep

def nameA : Name := ⟨bytes "a", by decide⟩

def nameB : Name := ⟨bytes "b", by decide⟩

def nameC : Name := ⟨bytes "c", by decide⟩

/-- A disk with a file `b`, and a directory `a` with another file `b` in it. -/
def sample : Kernel where
  disk := (((FileTree.root 0o755).add [] nameA (.dir 0o755) (by decide) (by decide)).add [nameA] nameB
    (.leaf (.file 0o644 (bytes "text"))) (by decide) (by decide)).add [] nameB (.leaf (.file 0o600 []))
      (by decide) (by decide)
  cwd := []
  umask := 0o022

theorem delete_recursive_sample : ∃ r k', Delete 3 (bytes "/a") true sample = (.ok r, k') ∧
    Without (fun q => [nameA] <+: q ∨ [nameA] <+: q ∧ q ≠ [nameA]) sample k' :=
  delete_recursive (by decide) (by decide) (by decide) (by decide) (linkFree_of_entries (by decide))
    (shallow_of_entries (by decide))

/-- The entries that a recursive `Delete` of a path comes to: what its last name stands for, and what it comes to from
the names in the directory that the path leads to. -/
inductive Reaches (k : Kernel) : Bytes → Path → Prop
  | self {path : Bytes} {e : Path} (h : k.entry path = some e) : Reaches k path e
  | child {path : Bytes} {p q : Path} {n : Name} (hfind : k.find true path = some p)
    (hn : (k.disk.node (p ++ [n])).isSome = true) (h : Reaches k (path ++ 47 :: n.1) q) : Reaches k path q

/-- All entries are as they were, or they are gone and are among certain ones. -/
structure Loses (among : Path → Prop) (k k' : Kernel) : Prop where
  cwd : k'.cwd = k.cwd
  umask : k'.umask = k.umask
  node : ∀ q, k'.disk.node q = k.disk.node q ∨ k'.disk.node q = none ∧ among q

theorem Loses.refl (among : Path → Prop) (k : Kernel) : Loses among k k := ⟨rfl, rfl, fun _ => .inl rfl⟩

theorem Loses.trans {among : Path → Prop} (h₁ : Loses among k k₁) (h₂ : Loses among k₁ k₂) : Loses among k k₂ where
  cwd := h₂.cwd.trans h₁.cwd
  umask := h₂.umask.trans h₁.umask
  node q := by
    rcases h₂.node q with h | h
    · rcases h₁.node q with h' | h'
      · exact .inl (h.trans h')
      · exact .inr ⟨h.trans h'.1, h'.2⟩
    · exact .inr h

theorem Loses.le {among : Path → Prop} (h : Loses among k k') : k'.disk ≤ k.disk := by
  intro q x hq
  rcases h.node q with h | h
  · rwa [← h]
  · rw [h.1] at hq
    cases hq

theorem Loses.mono {among among' : Path → Prop} (h : Loses among k k') (himp : ∀ q, among q → among' q) :
    Loses among' k k' := ⟨h.cwd, h.umask, fun q => (h.node q).imp_right fun hq => ⟨hq.1, himp q hq.2⟩⟩

theorem loses_bind {α β : Type} {among : Path → Prop} {y : Method Kernel Thrown α} {f : α → Method Kernel Thrown β}
    (hy : Loses among k (y k).2) (hf : ∀ a k₁, y k = (.ok a, k₁) → Loses among k₁ (f a k₁).2) :
    Loses among k ((y >>= f) k).2 := by
  cases hrun : y k with
  | mk r k₁ =>
    rw [hrun] at hy
    cases r with
    | ok a =>
      rw [bind_ok hrun]
      exact hy.trans (hf a k₁ hrun)
    | error e =>
      rw [bind_error hrun]
      exact hy

/-- A tree with fewer entries and the same working directory. -/
theorem Reaches.mono (hle : k'.disk ≤ k.disk) (hcwd : k'.cwd = k.cwd) (h : Reaches k' path q) : Reaches k path q := by
  induction h with
  | self h => exact .self (Kernel.entry_mono hle hcwd.symm h)
  | child hfind hn _ ih =>
    obtain ⟨x, hx⟩ := Option.isSome_iff_exists.mp hn
    exact .child (Kernel.find_mono hle hcwd.symm hfind) (by rw [hle _ _ hx]; rfl) ih

theorem loses_remove (h : k.remove path = some k') : Loses (Reaches k path) k k' := by
  unfold Kernel.remove at h
  split at h
  next e hentry =>
    split at h
    next he =>
      cases h
      refine ⟨rfl, rfl, fun q => ?_⟩
      show (k.disk.prune e he.1).node q = k.disk.node q ∨ (k.disk.prune e he.1).node q = none ∧ Reaches k path q
      rw [node_prune]
      split
      next hq =>
        by_cases heq : q = e
        · exact .inr ⟨rfl, heq ▸ .self hentry⟩
        · cases hsome : k.disk.node q with
          | none => exact .inl rfl
          | some x =>
            obtain ⟨n, hn, -⟩ := exists_name (by rw [hsome]; rfl) hq heq
            rw [he.2] at hn
            cases hn
      next => exact .inl rfl
    next => cases h
  next => cases h

theorem loses_perform : Loses (Reaches k path) k (perform (·.remove path) k).2 := by
  cases hremove : k.remove path with
  | none =>
    rw [perform_none hremove]
    exact .refl _ k
  | some k' =>
    rw [perform_eq hremove]
    exact loses_remove hremove

/-- The loop over the names of a directory. -/
theorem loses_children {delete : Bytes → Method Kernel Thrown Nat} {among : Path →
    Prop} {recursive : Bool} {ns : List Name}
    (hdelete : ∀ n ∈ ns, ∀ k₁, k₁.disk ≤ k.disk → k₁.cwd = k.cwd → Loses among k₁ (delete n.1 k₁).2)
    (hle : k₁.disk ≤ k.disk) (hcwd : k₁.cwd = k.cwd) :
    Loses among k₁ (deleteChildren delete recursive (ns.map Subtype.val) total k₁).2 := by
  induction ns generalizing k₁ total with
  | nil => exact .refl _ k₁
  | cons n ns ih =>
    rw [List.map_cons, deleteChildren, if_neg (not_same_dots n)]
    split
    next =>
      have hn := hdelete n List.mem_cons_self k₁ hle hcwd
      refine loses_bind hn fun _ k₂ hrun => ?_
      rw [hrun] at hn
      exact ih (fun m hm => hdelete m (List.mem_cons_of_mem n hm)) (hn.le.trans hle) (hn.cwd.trans hcwd)
    next => exact .refl _ k₁

theorem loses_format {α : Type} (among : Path → Prop) (fmt printed : Bytes) (k : Kernel) :
    Loses among k (throwFormat fmt printed k : Except Thrown α × Kernel).2 := by
  unfold throwFormat
  cases Format fmt printed <;> exact .refl _ k

theorem readdir_inv {children : List Bytes} (h : k.readdir path = some children) :
    ∃ p, k.find true path = some p ∧ children = [46] :: [46, 46] :: (k.disk.names p).map Subtype.val := by
  unfold Kernel.readdir at h
  split at h
  next p hfind =>
    split at h
    next =>
      cases h
      exact ⟨p, hfind, rfl⟩
    next => cases h
  next => cases h

/-- Whatever it returns or throws, `Delete` adds and changes no entry, and takes away only such as it comes to. -/
theorem delete_reaches (rounds : Nat) (path : Bytes) (recursive : Bool) (k : Kernel) :
    Loses (Reaches k path) k (Delete rounds path recursive k).2 := by
  induction rounds generalizing path recursive k with
  | zero => exact .refl _ k
  | succ rounds ih =>
    rw [Delete, get_bind]
    split
    next => exact .refl _ k
    next =>
      split
      next => exact loses_bind loses_perform fun _ k₁ _ => .refl _ k₁
      next =>
        cases hread : k.readdir path with
        | none => exact loses_format _ _ _ k
        | some children =>
          obtain ⟨p, hfind, rfl⟩ := readdir_inv hread
          simp only [deleteChildren_dots]
          have hloop : Loses (Reaches k path) k (deleteChildren
            (fun child => Delete rounds (path ++ bytes "/" ++ child) true)
              recursive ((k.disk.names p).map Subtype.val) 0 k).2 := by
            refine loses_children (fun n hn k₁ hle hcwd => ?_) le_rfl rfl
            rw [append_slash]
            exact (ih _ true k₁).mono fun q hq => .child hfind (mem_names.mp hn) (hq.mono hle hcwd)
          refine loses_bind hloop fun total k₁ hrun => ?_
          rw [hrun] at hloop
          split
          next => exact loses_format _ _ _ k₁
          next =>
            show Loses (Reaches k path) k₁ ((k₁.remove path).getD k₁)
            cases hremove : k₁.remove path with
            | none => exact .refl _ k₁
            | some k₂ => exact (loses_remove hremove).mono fun q hq => hq.mono hloop.le hloop.cwd

/-- Without links below it, that is the entry and what is below it. -/
theorem Reaches.inside {e : Path} (hpath : ∀ b ∈ path, b ≠ 0) (hfind : k.find true path = some p)
    (hentry : k.entry path = some e) (hlinks : LinkFree k p) (h : Reaches k path q) : q = e ∨ p <+: q ∧ q ≠ p := by
  induction h generalizing p e with
  | self h => exact .inl (Option.some.inj (h.symm.trans hentry))
  | @child path p' q n hfind' hn _ ih =>
    have heq : p' = p := Option.some.inj (hfind'.symm.trans hfind)
    subst heq
    obtain ⟨x, hx⟩ := Option.isSome_iff_exists.mp hn
    have hlink : ¬Linked x := hlinks [n] x (List.cons_ne_nil n []) hx
    have hinside := ih (child_ne_zero hpath n) (Kernel.find_child hpath hfind hx hlink)
      (Kernel.entry_child hpath hfind hx)
      (hlinks.snoc n)
    have hsnoc : p' ++ [n] <+: q := by
      rcases hinside with rfl | hinside
      · exact List.prefix_rfl
      · exact hinside.1
    exact .inr ⟨(List.prefix_append p' [n]).trans hsnoc, fun he => not_below n (fun _ => he) hsnoc⟩

/-- A disk with a file in a directory `b`, to which a link in the directory `a` leads. -/
def linked : Kernel where
  disk := ((((FileTree.root 0o755).add [] nameA (.dir 0o755) (by decide) (by decide)).add [] nameB
    (.dir 0o755) (by decide)
    (by decide)).add [nameA] nameC (.leaf (.link (bytes "../b"))) (by decide) (by decide)).add [nameB] nameC
      (.leaf (.file 0o644 [])) (by decide) (by decide)
  cwd := []
  umask := 0

/-- Through a link, a `Delete` empties a directory outside. -/
example : linked.disk.node [nameB, nameC] ≠ none ∧ (Delete 3 (bytes "/a") true linked).1 = .ok 0 ∧
    (Delete 3 (bytes "/a") true linked).2.disk.node [nameB, nameC] = none := by decide

end Srl.FS
