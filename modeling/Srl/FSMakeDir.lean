import Srl.FSDelete
import Srl.StrSection

namespace Srl.FS

open Bytes FileTree Session Posix

variable {k k' k₁ k₂ : Kernel} {path new_path piece : Bytes} {pieces : List Bytes} {d p q s : Path} {n : Name}
  {x : Node UInt32 Item} {rounds i : Nat} {modes : UInt32} {permissions : Option Permissions}

def modesOf (owner_read owner_write execute group_read group_write group_execute other_read : Bool) : UInt32 :=
  (if owner_read then 0o400 else 0) ||| (if owner_write then 0o202 else 0) ||| (if execute then 0o101 else 0) |||
  (if group_read then 0o040 else 0) ||| (if group_write then 0o020 else 0) ||| (if group_execute then 0o010 else 0) |||
  (if other_read then 0o004 else 0)

/-- Others get the owner's permissions to write and to execute. -/
theorem permissionsToModes_eq (permissions : Permissions) : PermissionsToModes permissions =
    modesOf (permissions.owners &&& 4 ≠ 0) (permissions.owners &&& 2 ≠ 0) (permissions.owners &&& 1 ≠ 0)
      (permissions.groups &&& 4 ≠ 0) (permissions.groups &&& 2 ≠ 0) (permissions.groups &&& 1 ≠ 0)
      (permissions.others &&& 4 ≠ 0) := by
  have hmasks : ∀ a b c d e f g : Bool, ((if a then 0o400 else 0) ||| (if b then 0o200 else 0) |||
      (if c then 0o100 else 0) ||| (if d then 0o040 else 0) ||| (if e then 0o020 else 0) |||
        (if f then 0o010 else 0) |||
      (if g then 0o004 else 0) ||| (if b then 0o002 else 0) ||| (if c then 0o001 else 0) : UInt32) =
      modesOf a b c d e f g := by decide
  have hmodes := hmasks (permissions.owners &&& 4 ≠ 0) (permissions.owners &&& 2 ≠ 0) (permissions.owners &&& 1 ≠ 0)
    (permissions.groups &&& 4 ≠ 0) (permissions.groups &&& 2 ≠ 0) (permissions.groups &&& 1 ≠ 0)
    (permissions.others &&& 4 ≠ 0)
  simp only [decide_eq_true_eq] at hmodes
  exact hmodes

/-- With a `umask` of 0 a directory gets the modes that are asked for. -/
theorem permissionsToModes_mask (permissions : Permissions) :
    PermissionsToModes permissions &&& 0o1777 &&& ~~~0 = PermissionsToModes permissions := by
  have hmasks : ∀ a b c d e f g : Bool, modesOf a b c d e f g &&& 0o1777 &&& ~~~0 = modesOf a b c d e f g := by decide
  rw [permissionsToModes_eq]
  exact hmasks ..

/-- A directory that is made without permissions is one that others may write to. -/
example : PermissionsToModes ⟨7, 7, 0⟩ = 0o773 := by decide

theorem mkdir_run (hdst : k.place false path (trim (components path)) = some (.free d n)) :
    ∃ k', k.mkdir path modes = some k' ∧ k'.cwd = k.cwd ∧ k'.umask = k.umask ∧
      ∀ s, k'.disk.node s = if s = d ++ [n] then some (.dir (modes &&& 0o1777 &&& ~~~k.umask)) else k.disk.node s := by
  obtain ⟨hdir, hnone⟩ := (Kernel.place_iff.mp hdst).2.free_inv
  unfold Kernel.mkdir
  rw [hdst]
  simp only
  rw [dif_pos ⟨hdir, hnone⟩]
  exact ⟨_, rfl, rfl, rfl, fun s => node_add hdir hnone⟩

theorem mkdir_inv (h : k.mkdir path modes = some k') : ∃ d n,
    k.place false path (trim (components path)) = some (.free d n) := by
  unfold Kernel.mkdir at h
  split at h
  next d n hplace => exact ⟨d, n, hplace⟩
  next => cases h

/-- The modes that `MakeDir` asks for. -/
def makeModes (permissions : Option Permissions) : UInt32 := PermissionsToModes (permissions.getD ⟨7, 7, 0⟩)

theorem makeDirOnly_run (hdst : k.place false path (trim (components path)) = some (.free d n)) :
    ∃ k', MakeDirOnly path permissions k = (.ok (), k') ∧ k'.cwd = k.cwd ∧ k'.umask = 0 ∧
      ∀ s, k'.disk.node s = if s = d ++ [n] then some (.dir (makeModes permissions)) else k.disk.node s := by
  obtain ⟨k', hmkdir, hcwd, humask, hnode⟩ := @mkdir_run { k with umask := 0 } path d n (makeModes permissions) hdst
  refine ⟨k', ?_, hcwd, humask, fun s => ?_⟩
  · show perform (·.mkdir path (makeModes permissions)) { k with umask := 0 } = _
    exact perform_eq hmkdir
  · rw [hnode, makeModes, permissionsToModes_mask]

theorem makeDirOnly_none (h : ∀ d n, k.place false path (trim (components path)) ≠ some (.free d n)) :
    MakeDirOnly path permissions k = (.error .errno, { k with umask := 0 }) := by
  have hmkdir : Kernel.mkdir { k with umask := 0 } path (makeModes permissions) = none := by
    cases hrun : Kernel.mkdir { k with umask := 0 } path (makeModes permissions) with
    | none => rfl
    | some k' =>
      obtain ⟨d, n, hplace⟩ := mkdir_inv hrun
      exact absurd hplace (h d n)
  show perform (·.mkdir path (makeModes permissions)) { k with umask := 0 } = _
  exact perform_none hmkdir

/-- All entries are as they were, and those that are new are directories with certain modes. -/
structure Gains (modes : UInt32) (k k' : Kernel) : Prop where
  cwd : k'.cwd = k.cwd
  umask : k'.umask = k.umask ∨ k'.umask = 0
  le : k.disk ≤ k'.disk
  added : ∀ q, k'.disk.node q = k.disk.node q ∨ k'.disk.node q = some (.dir modes)

theorem Gains.refl (modes : UInt32) (k : Kernel) : Gains modes k k := ⟨rfl, .inl rfl, le_rfl, fun _ => .inl rfl⟩

theorem Gains.trans (h₁ : Gains modes k k₁) (h₂ : Gains modes k₁ k₂) : Gains modes k k₂ where
  cwd := h₂.cwd.trans h₁.cwd
  umask := by
    rcases h₂.umask with h | h
    · exact h₁.umask.imp h.trans h.trans
    · exact .inr h
  le := h₁.le.trans h₂.le
  added q := by
    rcases h₂.added q with h | h
    · exact (h₁.added q).imp h.trans h.trans
    · exact .inr h

theorem Gains.exists (h : Gains modes k k') (he : Exists k path = true) : Exists k' path = true := by
  obtain ⟨x, hx⟩ := Option.isSome_iff_exists.mp he
  obtain ⟨p, hfind, hp⟩ := Option.bind_eq_some_iff.mp hx
  rw [Exists, stat_eq (Kernel.find_mono h.le h.cwd hfind) (h.le _ _ hp)]
  rfl

theorem makeDirOnly_gains (path : Bytes) (permissions : Option Permissions) (k : Kernel) :
    Gains (makeModes permissions) k (MakeDirOnly path permissions k).2 := by
  by_cases hfree : ∃ d n, k.place false path (trim (components path)) = some (.free d n)
  · obtain ⟨d, n, hplace⟩ := hfree
    obtain ⟨k', hrun, hcwd, humask, hnode⟩ := @makeDirOnly_run k path d n permissions hplace
    obtain ⟨-, hnone⟩ := (Kernel.place_iff.mp hplace).2.free_inv
    rw [hrun]
    refine ⟨hcwd, .inr humask, fun s x hs => ?_, fun s => ?_⟩
    · rw [hnode]
      split
      next he =>
        rw [he, hnone] at hs
        cases hs
      next => exact hs
    · rw [hnode]
      split
      next => exact .inr rfl
      next => exact .inl rfl
  · rw [makeDirOnly_none fun d n h => hfree ⟨d, n, h⟩]
    exact ⟨rfl, .inr rfl, le_rfl, fun _ => .inl rfl⟩

/-- A directory that was made is found under its path. -/
theorem makeDirOnly_exists (h : MakeDirOnly path permissions k = (.ok (), k')) : Exists k' path = true := by
  by_cases hfree : ∃ d n, k.place false path (trim (components path)) = some (.free d n)
  · obtain ⟨d, n, hplace⟩ := hfree
    obtain ⟨k₁, hrun, hcwd, -, hnode⟩ := @makeDirOnly_run k path d n permissions hplace
    have hgains := makeDirOnly_gains path permissions k
    rw [hrun] at h hgains
    obtain ⟨-, rfl⟩ := Prod.mk.inj h
    have hself : k₁.disk.node (d ++ [n]) = some (.dir (makeModes permissions)) := by rw [hnode, if_pos rfl]
    obtain ⟨hne, hway⟩ := Kernel.place_iff.mp hplace
    have hthere := (hway.reopen hgains.le (.down hself (not_linked_dir _) (.stop 0 _))).follow_there fun y hy => by
      rw [hself] at hy
      cases hy
      exact not_linked_dir _
    have hfind := Kernel.find_of_trim hne (hcwd ▸ hthere) (isDir_iff.mpr ⟨_, hself⟩)
    rw [Exists, stat_eq hfind hself]
    rfl
  · rw [makeDirOnly_none fun d n h => hfree ⟨d, n, h⟩] at h
    cases h

/-- The loop over sections in turn. -/
def makeDirs (permissions : Option Permissions) : List Bytes → Bytes → Method Kernel Thrown Unit
  | [], _ => pure ()
  | piece :: pieces, new_path => do
    let new_path := new_path ++ piece
    let k ← get
    if !Exists k new_path then MakeDirOnly new_path permissions
    makeDirs permissions pieces (new_path ++ bytes "/")

theorem makeDirLoop_eq (rounds i : Nat) (new_path : Bytes) : makeDirLoop path permissions rounds i new_path =
    makeDirs permissions ((List.range' i rounds).map (sectionOf path)) new_path := by
  induction rounds generalizing i new_path with
  | zero => rfl
  | succ rounds ih =>
    rw [List.range'_succ, List.map_cons, makeDirLoop, makeDirs]
    simp only [ih]

/-- A round whose path leads to something. -/
theorem makeDirs_there (h : Exists k (new_path ++ piece) = true) : makeDirs permissions (piece :: pieces) new_path k =
    makeDirs permissions pieces (new_path ++ piece ++ bytes "/") k := by
  rw [makeDirs, get_bind, h]
  rfl

/-- A round whose path leads nowhere. -/
theorem makeDirs_made (h : Exists k (new_path ++ piece) = false) : makeDirs permissions (piece :: pieces) new_path k =
    (MakeDirOnly (new_path ++ piece) permissions >>= fun _ =>
      makeDirs permissions pieces (new_path ++ piece ++ bytes "/")) k := by
  rw [makeDirs, get_bind, h]
  rfl

theorem makeDirs_gains (pieces : List Bytes) (new_path : Bytes) (k : Kernel) :
    Gains (makeModes permissions) k (makeDirs permissions pieces new_path k).2 := by
  induction pieces generalizing new_path k with
  | nil => exact .refl _ k
  | cons piece pieces ih =>
    cases hexists : Exists k (new_path ++ piece) with
    | true =>
      rw [makeDirs_there hexists]
      exact ih _ k
    | false =>
      have hgains := makeDirOnly_gains (new_path ++ piece) permissions k
      rw [makeDirs_made hexists]
      cases hrun : MakeDirOnly (new_path ++ piece) permissions k with
      | mk r k₁ =>
        rw [hrun] at hgains
        cases r with
        | ok a =>
          rw [bind_ok hrun]
          exact hgains.trans (ih _ k₁)
        | error e =>
          rw [bind_error hrun]
          exact hgains

/-- Whatever it returns or throws, `MakeDir` takes away and changes no entry, and adds only directories. -/
theorem makeDir_gains (path : Bytes) (permissions : Option Permissions) (recursive : Bool) (k : Kernel) :
    Gains (makeModes permissions) k (MakeDir path permissions recursive k).2 := by
  unfold MakeDir
  split
  next =>
    rw [makeDirLoop_eq]
    exact makeDirs_gains ..
  next => exact makeDirOnly_gains path permissions k

/-- Once a round is through, there is something under its path. -/
theorem makeDirs_exists (h : makeDirs permissions (piece :: pieces) new_path k = (.ok (), k')) :
    ∃ k₁, Exists k₁ (new_path ++ piece) = true ∧
      makeDirs permissions pieces (new_path ++ piece ++ bytes "/") k₁ = (.ok (), k') := by
  cases hexists : Exists k (new_path ++ piece) with
  | true => exact ⟨k, hexists, makeDirs_there hexists ▸ h⟩
  | false =>
    rw [makeDirs_made hexists] at h
    obtain ⟨_, k₁, hmade, hrest⟩ := bind_inv h
    exact ⟨k₁, makeDirOnly_exists hmade, hrest⟩

/-- The text in front of a section. -/
def front (path : Bytes) (i : Nat) : Bytes := (((path.splitOn 47).take i).map (· ++ [47])).flatten

theorem flatten_append_intercalate (ps : List Bytes) {i : Nat} (h : i < ps.length) :
    ((ps.take i).map (· ++ [47])).flatten ++ [47].intercalate (ps.drop i) = [47].intercalate ps := by
  induction ps generalizing i with
  | nil => cases h
  | cons piece ps ih =>
    cases i with
    | zero => rfl
    | succ i =>
      have h := Nat.lt_of_succ_lt_succ h
      have hne : ps ≠ [] := List.ne_nil_of_length_pos (Nat.zero_lt_of_lt h)
      rw [List.take_succ_cons, List.map_cons, List.flatten_cons, List.drop_succ_cons, List.append_assoc, ih h,
        List.intercalate_cons_of_ne_nil hne, List.append_assoc]

theorem front_append (h : i < (path.splitOn 47).length) :
    front path i ++ ([47] : Bytes).intercalate ((path.splitOn 47).drop i) = path := by
  rw [front, flatten_append_intercalate _ h, List.intercalate_splitOn]

/-- A section with its front is the whole path, or it is not the last one and what follows has a slash behind it for its
front. -/
theorem front_sectionOf (h : i < (path.splitOn 47).length) : front path i ++ sectionOf path i = path ∨
    i + 1 < (path.splitOn 47).length ∧ front path i ++ sectionOf path i ++ bytes "/" = front path (i + 1) := by
  have hfront := front_append h
  have hget := List.getElem?_eq_getElem h
  rw [sectionOf, hget]
  cases hpiece : (path.splitOn 47)[i] with
  | nil => exact .inl hfront
  | cons b piece =>
    have hdrop := List.drop_eq_getElem_cons h
    rw [hpiece] at hdrop
    by_cases hlast : i + 1 < (path.splitOn 47).length
    · refine .inr ⟨hlast, ?_⟩
      rw [front, front, List.take_succ_eq_append_getElem h, List.map_append, List.flatten_append, hpiece]
      simp [bytes]
    · refine .inl ?_
      rw [hdrop, List.drop_eq_nil_of_le (by omega), List.intercalate_singleton] at hfront
      exact hfront

theorem makeDirs_path (rounds i : Nat) (hlen : i + (rounds + 1) = (path.splitOn 47).length)
    (h : makeDirs permissions ((List.range' i (rounds + 1)).map (sectionOf path)) (front path i) k = (.ok (), k')) :
    Exists k' path = true := by
  induction rounds generalizing i k with
  | zero =>
    obtain ⟨k₁, hexists, hrest⟩ := makeDirs_exists h
    cases hrest
    rcases front_sectionOf (by omega : i < (path.splitOn 47).length) with heq | ⟨hlast, -⟩
    · rwa [heq] at hexists
    · omega
  | succ rounds ih =>
    rw [List.range'_succ, List.map_cons] at h
    obtain ⟨k₁, hexists, hrest⟩ := makeDirs_exists h
    rcases front_sectionOf (by omega : i < (path.splitOn 47).length) with heq | ⟨-, heq⟩
    · rw [heq] at hexists hrest
      have hgains : Gains (makeModes permissions) k₁ _ := makeDirs_gains
        ((List.range' (i + 1) (rounds + 1)).map (sectionOf path)) (path ++ bytes "/") k₁
      rw [hrest] at hgains
      exact hgains.exists hexists
    · rw [heq] at hrest
      exact ih (i + 1) (by omega) hrest

/-- A recursive `MakeDir` that returns leaves something under its path. -/
theorem makeDir_exists (h : MakeDir path permissions true k = (.ok (), k')) : Exists k' path = true := by
  have hlen := Occurrences.length_splitOn (47 : UInt8) path
  rw [MakeDir, if_pos rfl, makeDirLoop_eq] at h
  cases path with
  | nil => exact makeDirs_path 0 0 rfl h
  | cons b rest =>
    by_cases hb : b = 47
    · subst hb
      have hsplit : (47 :: rest).splitOn 47 = [] :: rest.splitOn 47 := List.splitOn_append_cons_self [] rest
      have hpos : 0 < (rest.splitOn 47).length := List.length_pos_iff.mpr (List.splitOn_ne_nil 47 rest)
      have hfront : front (47 :: rest) 1 = bytes "/" := by
        rw [front, hsplit]
        rfl
      rw [hsplit, List.length_cons] at hlen
      have hcount : (47 :: rest).count 47 + 1 - 1 = (rest.splitOn 47).length - 1 + 1 := by omega
      have hchar : Bytes.charAt (47 :: rest) 0 = 47 := rfl
      rw [if_pos hchar, if_pos hchar, hcount, ← hfront] at h
      exact makeDirs_path _ 1 (by rw [hsplit, List.length_cons]; omega) h
    · have hchar : Bytes.charAt (b :: rest) 0 ≠ 47 := hb
      rw [if_neg hchar, if_neg hchar] at h
      exact makeDirs_path _ 0 (by rw [hlen, Nat.zero_add]) h

theorem makeDir_exists_sample : ∃ k', MakeDir (bytes "/a//c") none true sample = (.ok (), k') ∧
    Exists k' (bytes "/a//c") = true := by
  have hok : (MakeDir (bytes "/a//c") none true sample).1 = .ok () := by decide +kernel
  have hrun : MakeDir (bytes "/a//c") none true sample = (.ok (), (MakeDir (bytes "/a//c") none true sample).2) := by
    rw [← hok, Prod.mk.eta]
  exact ⟨_, hrun, makeDir_exists hrun⟩

/-- The text of a path up to a name leads to the directory `p`. -/
def Leads (k : Kernel) (new_path : Bytes) (p : Path) : Prop := ∀ f n place, Way k.disk f 0 p [.name n] place →
  k.place f (new_path ++ n.1) (components (new_path ++ n.1)) = some place

theorem leads_child (hpath : ∀ b ∈ path, b ≠ 0) (hfind : k.find true path = some p) :
    Leads k (path ++ bytes "/") p := by
  intro f n place hway
  rw [append_slash, components_child hpath]
  exact Kernel.place_child hpath hfind hway

theorem leads_root (k : Kernel) : Leads k (bytes "/") [] := by
  intro f n place hway
  have hcomponents : components (bytes "/" ++ n.1) = [.slash, .name n] := by
    show components ([] ++ 47 :: n.1) = _
    rw [components_child fun _ hb => absurd hb List.not_mem_nil]
    rfl
  have hne : cstr (bytes "/" ++ n.1) ≠ [] := by
    rw [cstr_append_of_ne (by decide)]
    exact List.cons_ne_nil _ _
  rw [Kernel.place_iff, hcomponents]
  exact ⟨hne, .slash (isDir_nil _) (Nat.zero_add maxLinks ▸ hway.raise)⟩

theorem leads_cwd (k : Kernel) : Leads k [] k.cwd := by
  intro f n place hway
  have horigin : origin k.cwd n.1 = k.cwd := by
    unfold origin
    rw [if_neg fun hhead : n.1.head? = some 47 => n.2.2.2.2.1 (List.mem_of_mem_head? hhead)]
  rw [List.nil_append, Kernel.place_iff, components_name, cstr_name, horigin]
  exact ⟨n.2.1, Nat.zero_add maxLinks ▸ hway.raise⟩

/-- A file stands where a directory is needed. -/
def Blocked (k : Kernel) (p : Path) (ns : List Name) : Prop :=
  ∃ m r item, m ≠ [] ∧ r ≠ [] ∧ ns = m ++ r ∧ k.disk.node (p ++ m) = some (.leaf item)

/-- The directories on the way from `p` along some names are there, and all else is as it was. -/
structure Filled (modes : UInt32) (p : Path) (ns : List Name) (k k' : Kernel) : Prop where
  cwd : k'.cwd = k.cwd
  made : ∀ q, q <+: p ++ ns → k.disk.node q = none → k'.disk.node q = some (.dir modes)
  kept : ∀ q, ¬(q <+: p ++ ns ∧ k.disk.node q = none) → k'.disk.node q = k.disk.node q

theorem node_of_parent (hdir : k.disk.isDir p = true) (hq : q <+: p) : k.disk.node q ≠ none := by
  obtain ⟨r, rfl⟩ := hq
  obtain ⟨modes, hx⟩ := isDir_iff.mp hdir
  by_cases hr : r = []
  · rw [hr, List.append_nil] at hx
    rw [hx]
    exact Option.some_ne_none _
  · obtain ⟨_, hy⟩ := isDir_iff.mp (isDir_of_append hx hr)
    rw [hy]
    exact Option.some_ne_none _

theorem blocked_cons {ns : List Name} : Blocked k p (n :: ns) ↔
    (ns ≠ [] ∧ ∃ item, k.disk.node (p ++ [n]) = some (.leaf item)) ∨ Blocked k (p ++ [n]) ns := by
  constructor
  · rintro ⟨m, r, item, hm, hr, hns, hitem⟩
    obtain ⟨j, m, rfl⟩ := List.exists_cons_of_ne_nil hm
    rw [List.cons_append, List.cons.injEq] at hns
    obtain ⟨rfl, rfl⟩ := hns
    by_cases hm : m = []
    · subst hm
      exact .inl ⟨hr, item, hitem⟩
    · exact .inr ⟨m, r, item, hm, hr, rfl, by rwa [List.append_assoc]⟩
  · rintro (⟨hns, item, hitem⟩ | ⟨m, r, item, -, hr, rfl, hitem⟩)
    · exact ⟨[n], ns, item, List.cons_ne_nil _ _, hns, rfl, hitem⟩
    · exact ⟨n :: m, r, item, List.cons_ne_nil _ _, hr, rfl, by rwa [List.append_assoc] at hitem⟩

theorem not_blocked_free {ns : List Name} (hnone : k.disk.node (p ++ [n]) = none) : ¬Blocked k (p ++ [n]) ns := by
  rintro ⟨m, _, _, -, -, -, hitem⟩
  rw [node_of_free hnone (List.prefix_append _ m)] at hitem
  cases hitem

theorem ne_zero_append_name (hpath : ∀ b ∈ path, b ≠ 0) (n : Name) : ∀ b ∈ path ++ n.1, b ≠ 0 := by
  intro b hb
  rcases List.mem_append.mp hb with hb | hb
  · exact hpath b hb
  · exact fun he => n.2.2.2.2.2 (he ▸ hb)

theorem ne_zero_append_slash (hpath : ∀ b ∈ path, b ≠ 0) : ∀ b ∈ path ++ bytes "/", b ≠ 0 := by
  intro b hb
  rcases List.mem_append.mp hb with hb | hb
  · exact hpath b hb
  · rw [List.mem_singleton.mp hb]
    decide

/-- A name under which there is nothing becomes a directory. -/
theorem makeDirs_free {ns : List Name} (hdir : k.disk.isDir p = true) (hleads : Leads k new_path p)
    (hnone : k.disk.node (p ++ [n]) = none) :
    ∃ k₁, makeDirs permissions ((n :: ns).map Subtype.val) new_path k =
        makeDirs permissions (ns.map Subtype.val) (new_path ++ n.1 ++ bytes "/") k₁ ∧ k₁.cwd = k.cwd ∧
          k.disk ≤ k₁.disk ∧
      k₁.find true (new_path ++ n.1) = some (p ++ [n]) ∧
      ∀ q, k₁.disk.node q = if q = p ++ [n] then some (.dir (makeModes permissions)) else k.disk.node q := by
  have hplace : ∀ f, k.place f (new_path ++ n.1) (components (new_path ++ n.1)) = some (.free p n) := fun f =>
    hleads f n _ (.free hdir hnone)
  have hexists : Exists k (new_path ++ n.1) = false := by
    rw [Exists, Kernel.stat, Kernel.find, hplace]
    rfl
  have htrim := Kernel.trim_of_free (hplace false)
  obtain ⟨k₁, hmade, hcwd, -, hnode⟩ := @makeDirOnly_run k (new_path ++ n.1) p n permissions (by rw [htrim, hplace])
  have hgains := makeDirOnly_gains (new_path ++ n.1) permissions k
  rw [hmade] at hgains
  have hself : k₁.disk.node (p ++ [n]) = some (.dir (makeModes permissions)) := by rw [hnode, if_pos rfl]
  refine ⟨k₁, ?_, hcwd, hgains.le, Kernel.find_of_free hgains.le hcwd (hplace false) hself (not_linked_dir _), hnode⟩
  rw [List.map_cons, makeDirs_made hexists]
  exact bind_ok hmade

/-- A file ends the loop, if a name follows. -/
theorem makeDirs_file {m : Name} {ns : List Name} (hpath : ∀ b ∈ new_path ++ n.1, b ≠ 0)
    (hfind : k.find true (new_path ++ n.1) = some (p ++ [n])) (hfile : k.disk.isDir (p ++ [n]) = false) :
    makeDirs permissions ((m :: ns).map Subtype.val) (new_path ++ n.1 ++ bytes "/") k =
      (.error .errno, { k with umask := 0 }) := by
  have hplace : ∀ f, k.place f (new_path ++ n.1 ++ bytes "/" ++ m.1)
      (components (new_path ++ n.1 ++ bytes "/" ++ m.1)) = none := by
    intro f
    rw [append_slash]
    exact Kernel.place_below_leaf hpath hfind hfile m
  have hexists : Exists k (new_path ++ n.1 ++ bytes "/" ++ m.1) = false := by
    rw [Exists, Kernel.stat, Kernel.find, hplace]
    rfl
  have htrim : trim (components (new_path ++ n.1 ++ bytes "/" ++ m.1)) =
      components (new_path ++ n.1 ++ bytes "/" ++ m.1) := by
    rw [append_slash, components_child hpath, trim_snoc]
  rw [List.map_cons, makeDirs_made hexists]
  refine bind_error (makeDirOnly_none fun d j hfree => ?_)
  rw [htrim, hplace] at hfree
  cases hfree

/-- The loop over names below `p` makes the directories that are missing, unless a file is in its way. -/
def Fills (permissions : Option Permissions) (ns : List Name) (k : Kernel) (new_path : Bytes) (p : Path) : Prop :=
  (¬Blocked k p ns → ∃ k', makeDirs permissions (ns.map Subtype.val) new_path k = (.ok (), k') ∧
    Filled (makeModes permissions) p ns k k') ∧
  (Blocked k p ns → makeDirs permissions (ns.map Subtype.val) new_path k = (.error .errno, { k with umask := 0 }))

theorem fills_nil (hdir : k.disk.isDir p = true) : Fills permissions [] k new_path p := by
  refine ⟨fun _ => ⟨k, rfl, rfl, fun q hq hnone => ?_, fun _ _ => rfl⟩, ?_⟩
  · rw [List.append_nil] at hq
    exact absurd hnone (node_of_parent hdir hq)
  · rintro ⟨m, r, _, hm, -, hnil, -⟩
    exact absurd (List.append_eq_nil_iff.mp hnil.symm).1 hm

/-- A free name becomes a directory, with nothing below it that could block what follows. -/
theorem fills_free {ns : List Name} (hname : ∀ b ∈ new_path ++ n.1, b ≠ 0) (hdir : k.disk.isDir p = true)
    (hleads : Leads k new_path p) (hx : k.disk.node (p ++ [n]) = none)
    (ih : ∀ k₁ : Kernel, k₁.disk.isDir (p ++ [n]) = true → Leads k₁ (new_path ++ n.1 ++ bytes "/") (p ++ [n]) →
      (∀ m, m <+: ns → ∀ x, k₁.disk.node (p ++ [n] ++ m) = some x → ¬Linked x) →
        Fills permissions ns k₁ (new_path ++ n.1 ++ bytes "/") (p ++ [n])) :
    Fills permissions (n :: ns) k new_path p := by
  have hsplit : p ++ n :: ns = p ++ [n] ++ ns := List.append_cons p n ns
  obtain ⟨k₁, hrun, hcwd, hle, hfind, hnode⟩ := @makeDirs_free k new_path p n permissions ns hdir hleads hx
  have hself : k₁.disk.node (p ++ [n]) = some (.dir (makeModes permissions)) := by rw [hnode, if_pos rfl]
  have hbelow : ∀ m, m ≠ [] → k₁.disk.node (p ++ [n] ++ m) = none := by
    intro m hm
    rw [hnode, if_neg fun he => hm (List.append_right_eq_self.mp he)]
    exact node_of_free hx (List.prefix_append _ m)
  obtain ⟨hgoes, -⟩ := ih k₁ (isDir_iff.mpr ⟨_, hself⟩) (leads_child hname hfind) fun m _ y hy => by
    by_cases hm : m = []
    · rw [hm, List.append_nil, hself] at hy
      cases hy
      exact not_linked_dir _
    · rw [hbelow m hm] at hy
      cases hy
  constructor
  · intro _
    have hfree : ¬Blocked k₁ (p ++ [n]) ns := by
      rintro ⟨m, _, _, hm, -, -, hitem⟩
      rw [hbelow m hm] at hitem
      cases hitem
    obtain ⟨k', hrest, hfilled⟩ := hgoes hfree
    refine ⟨k', hrun.trans hrest, hfilled.cwd.trans hcwd, fun q hq hnone => ?_, fun q hq => ?_⟩
    · by_cases he : q = p ++ [n]
      · rw [hfilled.kept q (by rw [he, hself]; exact fun h => Option.some_ne_none _ h.2), he, hself]
      · exact hfilled.made q (hsplit ▸ hq) (by rw [hnode, if_neg he, hnone])
    · rw [hfilled.kept q ?_, hnode, if_neg ?_]
      · rintro rfl
        exact hq ⟨hsplit ▸ List.prefix_append _ ns, hx⟩
      · rintro ⟨hsub, hnone⟩
        refine hq ⟨hsplit ▸ hsub, ?_⟩
        cases hq : k.disk.node q with
        | none => rfl
        | some y =>
          rw [hle q y hq] at hnone
          cases hnone
  · intro hblocked
    rcases blocked_cons.mp hblocked with ⟨-, _, hitem⟩ | hblocked
    · rw [hx] at hitem
      cases hitem
    · exact absurd hblocked (not_blocked_free hx)

/-- A directory that is there stays as it is. -/
theorem fills_dir {ns : List Name} (hfind : k.find true (new_path ++ n.1) = some (p ++ [n]))
    (hx : k.disk.node (p ++ [n]) = some (.dir modes))
    (ih : Fills permissions ns k (new_path ++ n.1 ++ bytes "/") (p ++ [n])) :
    Fills permissions (n :: ns) k new_path p := by
  have hsplit : p ++ n :: ns = p ++ [n] ++ ns := List.append_cons p n ns
  have hexists : Exists k (new_path ++ n.1) = true := by
    rw [Exists, stat_eq hfind hx]
    rfl
  obtain ⟨hgoes, hstops⟩ := ih
  unfold Fills
  rw [List.map_cons, makeDirs_there hexists, blocked_cons]
  refine ⟨fun hfree => ?_, fun hblocked => hstops (hblocked.resolve_left ?_)⟩
  · obtain ⟨k', hrest, hfilled⟩ := hgoes fun h => hfree (.inr h)
    exact ⟨k', hrest, hfilled.cwd, hsplit ▸ hfilled.made, hsplit ▸ hfilled.kept⟩
  · rintro ⟨-, item, hitem⟩
    rw [hx] at hitem
    cases hitem

/-- A file is fine for the last name only. -/
theorem fills_file {ns : List Name} {item : Item} (hname : ∀ b ∈ new_path ++ n.1, b ≠ 0)
    (hdir : k.disk.isDir p = true) (hfind : k.find true (new_path ++ n.1) = some (p ++ [n]))
    (hx : k.disk.node (p ++ [n]) = some (.leaf item)) : Fills permissions (n :: ns) k new_path p := by
  have hexists : Exists k (new_path ++ n.1) = true := by
    rw [Exists, stat_eq hfind hx]
    rfl
  unfold Fills
  rw [List.map_cons, makeDirs_there hexists, blocked_cons]
  cases ns with
  | nil =>
    refine ⟨fun _ => ⟨k, rfl, rfl, fun q hq hnone => ?_, fun _ _ => rfl⟩, ?_⟩
    · rcases List.prefix_concat_iff.mp hq with rfl | hq
      · rw [hx] at hnone
        cases hnone
      · exact absurd hnone (node_of_parent hdir hq)
    · rintro (⟨hnil, -⟩ | ⟨m, r, _, hm, -, hnil, -⟩)
      · exact absurd rfl hnil
      · exact absurd (List.append_eq_nil_iff.mp hnil.symm).1 hm
  | cons m ns =>
    have hfile : k.disk.isDir (p ++ [n]) = false := by rw [isDir, hx]
    exact ⟨fun hfree => absurd (.inl ⟨List.cons_ne_nil _ _, item, hx⟩) hfree, fun _ => makeDirs_file hname hfind hfile⟩

/-- The loop over names, from a directory without links on the way. -/
theorem makeDirs_names {ns : List Name} (hpath : ∀ b ∈ new_path, b ≠ 0) (hdir : k.disk.isDir p = true)
    (hleads : Leads k new_path p) (hlinks : ∀ m, m <+: ns → ∀ x, k.disk.node (p ++ m) = some x → ¬Linked x) :
    Fills permissions ns k new_path p := by
  induction ns generalizing k new_path p with
  | nil => exact fills_nil hdir
  | cons n ns ih =>
    have hname := ne_zero_append_name hpath n
    have hnext := ne_zero_append_slash hname
    have hlink : ∀ x, k.disk.node (p ++ [n]) = some x → ¬Linked x := hlinks [n] ⟨ns, rfl⟩
    have hfind : ∀ x, k.disk.node (p ++ [n]) = some x → k.find true (new_path ++ n.1) = some (p ++ [n]) := fun x hx =>
      Kernel.find_iff.mpr (hleads true n _ (.down hx (hlink x hx) (.stop 0 _)))
    cases hx : k.disk.node (p ++ [n]) with
    | none => exact fills_free hname hdir hleads hx fun k₁ hdir₁ hleads₁ hlinks₁ => ih hnext hdir₁ hleads₁ hlinks₁
    | some x =>
      have hfind := hfind x hx
      cases x with
      | dir modes =>
        refine fills_dir hfind hx (ih hnext (isDir_iff.mpr ⟨modes, hx⟩) (leads_child hname hfind) fun m hm y hy => ?_)
        exact hlinks (n :: m) (List.cons_prefix_cons.mpr ⟨rfl, hm⟩) y (by rwa [List.append_assoc] at hy)
      | leaf item => exact fills_file hname hdir hfind hx

theorem sections_eq (h : ∀ piece ∈ (path.splitOn 47).drop i, piece ≠ []) :
    (List.range' i ((path.splitOn 47).length - i)).map (sectionOf path) = (path.splitOn 47).drop i := by
  refine List.ext_getElem (by simp) fun j hj hj' => ?_
  rw [List.getElem_map, List.getElem_range', List.getElem_drop, Nat.one_mul]
  rw [List.length_drop] at hj'
  have hlt : i + j < (path.splitOn 47).length := by omega
  have hne := h _ (List.mem_drop_iff_getElem.mpr ⟨j, by omega, rfl⟩)
  rw [sectionOf, List.getElem?_eq_getElem hlt]
  cases hpiece : (path.splitOn 47)[i + j] with
  | nil => exact absurd hpiece hne
  | cons b piece => rfl

/-- The text of a path of names, from the root or from the working directory on. -/
def pathOf (absolute : Bool) (ns : List Name) : Bytes :=
  (if absolute then bytes "/" else []) ++ ([47] : Bytes).intercalate (ns.map Subtype.val)

def baseOf (k : Kernel) (absolute : Bool) : Path := if absolute then [] else k.cwd

theorem splitOn_names {ns : List Name} (hns : ns ≠ []) :
    (([47] : Bytes).intercalate (ns.map Subtype.val)).splitOn 47 = ns.map Subtype.val := by
  refine List.splitOn_intercalate 47 (fun piece hp => ?_) fun hnil => hns (List.map_eq_nil_iff.mp hnil)
  obtain ⟨n, -, rfl⟩ := List.mem_map.mp hp
  exact n.2.2.2.2.1

theorem makeDir_pathOf {ns : List Name} (hns : ns ≠ []) (absolute : Bool) :
    MakeDir (pathOf absolute ns) permissions true =
      makeDirs permissions (ns.map Subtype.val) (if absolute then bytes "/" else []) := by
  have hnames : ∀ piece ∈ ns.map Subtype.val, piece ≠ [] := by
    intro piece hp
    obtain ⟨n, -, rfl⟩ := List.mem_map.mp hp
    exact n.2.1
  have hlen := Occurrences.length_splitOn (47 : UInt8) (pathOf absolute ns)
  rw [MakeDir, if_pos rfl, makeDirLoop_eq]
  cases absolute with
  | true =>
    have hsplit : (pathOf true ns).splitOn 47 = [] :: ns.map Subtype.val := by
      have hroot : (pathOf true ns).splitOn 47 = [] :: (([47] : Bytes).intercalate (ns.map Subtype.val)).splitOn 47 :=
        List.splitOn_append_cons_self [] _
      rw [hroot, splitOn_names hns]
    have hchar : Bytes.charAt (pathOf true ns) 0 = 47 := rfl
    rw [if_pos hchar, if_pos hchar, ← hlen, sections_eq, hsplit]
    · rfl
    · rwa [hsplit]
  | false =>
    have hsplit : (pathOf false ns).splitOn 47 = ns.map Subtype.val := splitOn_names hns
    have hchar : Bytes.charAt (pathOf false ns) 0 ≠ 47 := by
      obtain ⟨⟨n, hn⟩, ms, rfl⟩ := List.exists_cons_of_ne_nil hns
      obtain ⟨b, bs, rfl⟩ := List.exists_cons_of_ne_nil hn.1
      have hb : b ≠ 47 := fun he => hn.2.2.2.1 (he ▸ List.mem_cons_self)
      cases ms with
      | nil => exact hb
      | cons m ms => exact hb
    rw [if_neg hchar, if_neg hchar, ← hlen, sections_eq, hsplit]
    · rfl
    · rwa [hsplit]

/-- The section is what `String::section` gives. -/
theorem sectionOf_yields (fresh : Nat → UInt8) {s : Str} (h : Str.Stores s path) (hpath : ∀ b ∈ path, b ≠ 0)
    (hi : i < 2 ^ 31) : Str.Yields (Str.sectionChar fresh 47 i true) s (sectionOf path i) := by
  obtain ⟨hsome, hnone⟩ := Str.sectionChar_null fresh h hpath (show (47 : UInt8) ≠ 0 by decide) hi
  unfold sectionOf
  cases hpiece : (path.splitOn 47)[i]? with
  | none => exact hnone hpiece
  | some piece =>
    obtain ⟨v, hv, hyields⟩ := hsome piece hpiece
    cases piece with
    | nil =>
      rw [if_pos rfl] at hyields
      rwa [← hv]
    | cons b piece => exact hyields

end Srl.FS
