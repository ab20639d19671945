import Mathlib.Data.List.TakeWhile
import Srl.Posix

namespace Srl.Posix

open Bytes FileTree

/-- A symbolic link. -/
def Linked (x : Node UInt32 Item) : Prop := ∃ target, x = .leaf (.link target)

instance : DecidablePred Linked
  | .leaf (.link target) => isTrue ⟨target, rfl⟩
  | .leaf (.file _ _) => isFalse nofun
  | .dir _ => isFalse nofun

theorem not_linked_dir (modes : UInt32) : ¬Linked (.dir modes) := by
  rintro ⟨_, h⟩
  cases h

/-- The ways along the components of a path, through at most so many links. -/
inductive Way (t : Disk) (f : Bool) : Nat → Path → List Component → Place → Prop
  | stop (i : Nat) (cur : Path) : Way t f i cur [] (.there cur)
  | slash {i : Nat} {cur : Path} {cs : List Component} {place : Place} (hd : t.isDir cur = true)
    (h : Way t f i cur cs place) : Way t f i cur (.slash :: cs) place
  | dot {i : Nat} {cur : Path} {cs : List Component} {place : Place} (hd : t.isDir cur = true)
    (h : Way t f i cur cs place) : Way t f i cur (.dot :: cs) place
  | up {i : Nat} {cur : Path} {cs : List Component} {place : Place} (hd : t.isDir cur = true)
    (h : Way t f i cur.dropLast cs place) : Way t f i cur (.up :: cs) place
  | down {i : Nat} {cur : Path} {n : Name} {x : Node UInt32 Item} {cs : List Component} {place : Place}
    (hn : t.node (cur ++ [n]) = some x) (hx : ¬Linked x) (h : Way t f i (cur ++ [n]) cs place) :
    Way t f i cur (.name n :: cs) place
  | free {i : Nat} {cur : Path} {n : Name} (hd : t.isDir cur = true) (hn : t.node (cur ++ [n]) = none) :
    Way t f i cur [.name n] (.free cur n)
  | last {i : Nat} {cur : Path} {n : Name} {x : Node UInt32 Item} (hn : t.node (cur ++ [n]) = some x) (hx : Linked x)
    (hf : f = false) : Way t f i cur [.name n] (.there (cur ++ [n]))
  | jump {i : Nat} {cur : Path} {n : Name} {target : Bytes} {cs : List Component} {place : Place}
    (hn : t.node (cur ++ [n]) = some (.leaf (.link target))) (hgo : ¬(cs = [] ∧ f = false)) (ht : cstr target ≠ [])
    (h : Way t f i (origin cur target) (components target ++ cs) place) : Way t f (i + 1) cur (.name n :: cs) place

variable {t t' : Disk} {f : Bool} {jump jump' : Path → Bytes → List Component → Option Place} {cur d p : Path}
  {c : Component} {cs ds : List Component} {n : Name} {path rest : Bytes} {i j : Nat} {x : Node UInt32 Item}
  {place : Place}

theorem components_append (h : ∀ b ∈ path, b ≠ 0) :
    components (path ++ 47 :: rest) = components path ++ components rest := by
  have hpieces : (cstr (path ++ 47 :: rest)).splitOn 47 = (cstr path).splitOn 47 ++ (cstr rest).splitOn 47 := by
    have hrest : cstr (47 :: rest) = 47 :: cstr rest := by simp [cstr]
    rw [cstr_append_of_ne h, cstr_of_ne h, hrest, List.splitOn_append_cons_self]
  unfold components
  simp only [hpieces]
  exact List.pmap_append' ..

theorem component_name (n : Name) (h : 47 ∉ n.1 ∧ 0 ∉ n.1) : component n.1 h = .name n := by
  rw [component, dif_neg n.2.1, dif_neg n.2.2.1, dif_neg n.2.2.2.1]

theorem cstr_name (n : Name) : cstr n.1 = n.1 := cstr_of_ne fun _ hb he => n.2.2.2.2.2 (he ▸ hb)

theorem components_name (n : Name) : components n.1 = [.name n] := by
  have hpieces : (cstr n.1).splitOn 47 = [n.1] := by
    rw [cstr_name, List.splitOn_eq_singleton n.2.2.2.2.1]
  unfold components
  simp only [hpieces, List.pmap_cons, component_name, List.pmap_nil]

theorem components_ne_nil (path : Bytes) : components path ≠ [] := by
  unfold components
  rw [ne_eq, List.pmap_eq_nil_iff]
  exact List.splitOn_ne_nil 47 _

theorem walkWith_cons : walkWith t f jump cur (c :: cs) =
    if t.isDir cur then
      match c with
      | .slash | .dot => walkWith t f jump cur cs
      | .up => walkWith t f jump cur.dropLast cs
      | .name n =>
        match t.node (cur ++ [n]) with
        | none => if cs = [] then some (.free cur n) else none
        | some (.leaf (.link target)) =>
          if cs = [] ∧ f = false then some (.there (cur ++ [n])) else jump cur target cs
        | some _ => walkWith t f jump (cur ++ [n]) cs
    else none := by
  cases c <;> rfl

theorem way_of_walkWith (hjump : ∀ cur n target cs, t.node (cur ++ [n]) = some (.leaf (.link target)) →
      ¬(cs = [] ∧ f = false) → jump cur target cs = some place → Way t f i cur (.name n :: cs) place)
    (hw : walkWith t f jump cur cs = some place) : Way t f i cur cs place := by
  induction cs generalizing cur with
  | nil =>
    cases hw
    exact .stop i cur
  | cons c cs ih =>
    rw [walkWith_cons] at hw
    split at hw
    next hd =>
      cases c with
      | slash => exact .slash hd (ih hw)
      | dot => exact .dot hd (ih hw)
      | up => exact .up hd (ih hw)
      | name n =>
        cases hn : t.node (cur ++ [n]) with
        | none =>
          simp only [hn] at hw
          split at hw
          next hcs =>
            cases hw
            subst hcs
            exact .free hd hn
          next => cases hw
        | some x =>
          simp only [hn] at hw
          rcases x with m | ⟨m, data⟩ | target
          · exact .down hn nofun (ih hw)
          · exact .down hn nofun (ih hw)
          · simp only at hw
            split at hw
            next hlast =>
              cases hw
              rw [hlast.1]
              exact .last hn ⟨target, rfl⟩ hlast.2
            next hgo => exact hjump cur n target cs hn hgo hw
    next => cases hw

theorem way_of_walk (hw : walk t f i cur cs = some place) : Way t f i cur cs place := by
  induction i generalizing cur cs with
  | zero =>
    refine way_of_walkWith (fun _ _ _ _ _ _ hj => ?_) hw
    cases hj
  | succ i ih =>
    refine way_of_walkWith (fun cur n target cs hn hgo hj => ?_) hw
    split at hj
    next => cases hj
    next ht => exact .jump hn hgo ht (ih hj)

/-- `walk` is one of `walkWith`. -/
theorem walk_eq (t : Disk) (f : Bool) (i : Nat) : ∃ jump, walk t f i = walkWith t f jump := by
  cases i with
  | zero => exact ⟨_, rfl⟩
  | succ i => exact ⟨_, rfl⟩

theorem Way.walk_eq (h : Way t f i cur cs place) : walk t f i cur cs = some place := by
  induction h with
  | @jump i cur n target cs place hn hgo ht _ ih =>
    rw [walk, walkWith_cons, if_pos (isDir_of_snoc hn)]
    simp only [hn, if_neg hgo, if_neg ht, ih]
  | stop i cur =>
    obtain ⟨jump, hjump⟩ := Posix.walk_eq t f i
    rw [hjump, walkWith]
  | @slash i cur cs place hd _ ih | @dot i cur cs place hd _ ih | @up i cur cs place hd _ ih =>
    obtain ⟨jump, hjump⟩ := Posix.walk_eq t f i
    rw [hjump] at ih ⊢
    rw [walkWith_cons, if_pos hd]
    exact ih
  | @down i cur n x cs place hn hx _ ih =>
    obtain ⟨jump, hjump⟩ := Posix.walk_eq t f i
    rw [hjump] at ih ⊢
    rw [walkWith_cons, if_pos (isDir_of_snoc hn)]
    rcases x with m | ⟨m, data⟩ | target
    · simpa only [hn] using ih
    · simpa only [hn] using ih
    · exact absurd ⟨target, rfl⟩ hx
  | @free i cur n hd hn =>
    obtain ⟨jump, hjump⟩ := Posix.walk_eq t f i
    rw [hjump, walkWith_cons, if_pos hd]
    simp only [hn, if_pos]
  | @last i cur n x hn hx hf =>
    obtain ⟨jump, hjump⟩ := Posix.walk_eq t f i
    obtain ⟨target, rfl⟩ := hx
    rw [hjump, walkWith_cons, if_pos (isDir_of_snoc hn)]
    simp only [hn, hf, and_self, if_pos]

theorem walk_iff : walk t f i cur cs = some place ↔ Way t f i cur cs place := ⟨way_of_walk, Way.walk_eq⟩

/-- A way to an entry is there in every tree that has the same entries and more. -/
theorem Way.mono (h : t ≤ t') (hw : Way t f i cur cs place) (hp : place = .there p) : Way t' f i cur cs (.there p) := by
  induction hw with
  | stop =>
    cases hp
    exact .stop ..
  | slash hd _ ih => exact .slash (isDir_mono h hd) (ih hp)
  | dot hd _ ih => exact .dot (isDir_mono h hd) (ih hp)
  | up hd _ ih => exact .up (isDir_mono h hd) (ih hp)
  | down hn hx _ ih => exact .down (h _ _ hn) hx (ih hp)
  | free => cases hp
  | last hn hx hf =>
    cases hp
    exact .last (h _ _ hn) hx hf
  | jump hn hgo ht _ ih => exact .jump (h _ _ hn) hgo ht (ih hp)

theorem Way.raise (hw : Way t f i cur cs place) : Way t f (i + j) cur cs place := by
  induction hw with
  | stop i cur => exact .stop _ cur
  | slash hd _ ih => exact .slash hd ih
  | dot hd _ ih => exact .dot hd ih
  | up hd _ ih => exact .up hd ih
  | down hn hx _ ih => exact .down hn hx ih
  | free hd hn => exact .free hd hn
  | last hn hx hf => exact .last hn hx hf
  | @jump i _ _ _ _ _ hn hgo ht _ ih =>
    rw [Nat.add_right_comm]
    exact .jump hn hgo ht ih

/-- Two ways that follow links make one. -/
theorem Way.append (hds : ds ≠ []) (hw : Way t true i cur cs (.there p)) (h : Way t f 0 p ds place) :
    Way t f i cur (cs ++ ds) place := by
  generalize hplace : Place.there p = end_ at hw
  induction hw with
  | stop i cur =>
    cases hplace
    exact Nat.zero_add i ▸ h.raise
  | slash hd _ ih => exact .slash hd (ih hplace)
  | dot hd _ ih => exact .dot hd (ih hplace)
  | up hd _ ih => exact .up hd (ih hplace)
  | down hn hx _ ih => exact .down hn hx (ih hplace)
  | free => cases hplace
  | last _ _ hf => cases hf
  | jump hn _ ht _ ih =>
    refine .jump hn (fun hlast => hds (List.append_eq_nil_iff.mp hlast.1).2) ht ?_
    exact List.append_assoc .. ▸ ih hplace

/-- A way to a free name goes on, where more entries are there, from the directory with that name. -/
theorem Way.reopen (h : t ≤ t') (hw : Way t f i cur cs (.free d n)) (hn : Way t' f 0 d [.name n] place) :
    Way t' f i cur cs place := by
  generalize hplace : Place.free d n = end_ at hw
  induction hw with
  | stop => cases hplace
  | slash hd _ ih => exact .slash (isDir_mono h hd) (ih hplace)
  | dot hd _ ih => exact .dot (isDir_mono h hd) (ih hplace)
  | up hd _ ih => exact .up (isDir_mono h hd) (ih hplace)
  | down hm hx _ ih => exact .down (h _ _ hm) hx (ih hplace)
  | @free i =>
    cases hplace
    exact Nat.zero_add i ▸ hn.raise
  | last => cases hplace
  | jump hm hgo ht _ ih => exact .jump (h _ _ hm) hgo ht (ih hplace)

/-- What is free is a name in a directory. -/
theorem Way.free_inv (hw : Way t f i cur cs (.free d n)) : t.isDir d = true ∧ t.node (d ++ [n]) = none := by
  generalize hplace : Place.free d n = end_ at hw
  induction hw with
  | stop => cases hplace
  | slash _ _ ih => exact ih hplace
  | dot _ _ ih => exact ih hplace
  | up _ _ ih => exact ih hplace
  | down _ _ _ ih => exact ih hplace
  | free hd hn =>
    cases hplace
    exact ⟨hd, hn⟩
  | last => cases hplace
  | jump _ _ _ _ ih => exact ih hplace

/-- A way to a free name that does not follow a last link does not meet one. -/
theorem Way.follow (hw : Way t false i cur cs (.free d n)) : Way t true i cur cs (.free d n) := by
  generalize hplace : Place.free d n = end_ at hw
  induction hw with
  | stop => cases hplace
  | slash hd _ ih => exact .slash hd (ih hplace)
  | dot hd _ ih => exact .dot hd (ih hplace)
  | up hd _ ih => exact .up hd (ih hplace)
  | down hn hx _ ih => exact .down hn hx (ih hplace)
  | free hd hn =>
    cases hplace
    exact .free hd hn
  | last => cases hplace
  | jump hn hgo ht _ ih =>
    exact .jump hn (fun h => absurd h.2 nofun) ht (ih hplace)

/-- Where a last link is not one, it does not matter whether it is followed. -/
theorem Way.follow_there (hw : Way t false i cur cs (.there p)) (hp : ∀ x, t.node p = some x → ¬Linked x) :
    Way t true i cur cs (.there p) := by
  generalize hplace : Place.there p = end_ at hw
  induction hw with
  | stop i cur =>
    cases hplace
    exact .stop i p
  | slash hd _ ih => exact .slash hd (ih hplace)
  | dot hd _ ih => exact .dot hd (ih hplace)
  | up hd _ ih => exact .up hd (ih hplace)
  | down hn hx _ ih => exact .down hn hx (ih hplace)
  | free => cases hplace
  | last hn hx =>
    cases hplace
    exact absurd hx (hp _ hn)
  | jump hn hgo ht _ ih => exact .jump hn (fun h => nomatch h.2) ht (ih hplace)

theorem isDir_dropLast (h : t.isDir cur = true) : t.isDir cur.dropLast = true := by
  rcases List.eq_nil_or_concat' cur with rfl | ⟨q, n, rfl⟩
  · exact h
  · obtain ⟨m, hm⟩ := isDir_iff.mp h
    rw [List.dropLast_concat]
    exact isDir_of_snoc hm

/-- A way leads to an entry. -/
theorem Way.isSome (hw : Way t f i cur cs (.there p)) (h : cs ≠ [] ∨ (t.node cur).isSome = true) :
    (t.node p).isSome = true := by
  have hdir : ∀ {q : Path}, t.isDir q = true → (t.node q).isSome = true := by
    intro q hq
    obtain ⟨m, hm⟩ := isDir_iff.mp hq
    rw [hm]
    rfl
  generalize hplace : Place.there p = end_ at hw
  induction hw with
  | stop =>
    cases hplace
    rcases h with h | h
    · exact absurd rfl h
    · exact h
  | slash hd _ ih => exact ih (.inr (hdir hd)) hplace
  | dot hd _ ih => exact ih (.inr (hdir hd)) hplace
  | up hd _ ih => exact ih (.inr (hdir (isDir_dropLast hd))) hplace
  | down hn _ _ ih => exact ih (.inr (by rw [hn]; rfl)) hplace
  | free => cases hplace
  | last hn =>
    cases hplace
    rw [hn]
    rfl
  | jump _ _ _ _ ih => exact ih (.inl (List.append_ne_nil_of_left_ne_nil (components_ne_nil _) _)) hplace

/-- Where the last link is followed, the end is none. -/
theorem Way.not_linked (hw : Way t true i cur cs (.there p)) (h : cs ≠ [] ∨ ∀ x, t.node cur = some x → ¬Linked x) :
    ∀ x, t.node p = some x → ¬Linked x := by
  have hdir : ∀ {q : Path}, t.isDir q = true → ∀ x, t.node q = some x → ¬Linked x := by
    rintro q hq x hx ⟨target, rfl⟩
    rw [isDir, hx] at hq
    cases hq
  generalize hplace : Place.there p = end_ at hw
  induction hw with
  | stop =>
    cases hplace
    rcases h with h | h
    · exact absurd rfl h
    · exact h
  | slash hd _ ih => exact ih (.inr (hdir hd)) hplace
  | dot hd _ ih => exact ih (.inr (hdir hd)) hplace
  | up hd _ ih => exact ih (.inr (hdir (isDir_dropLast hd))) hplace
  | down hn hx _ ih => exact ih (.inr fun y hy => Option.some.inj (hn.symm.trans hy) ▸ hx) hplace
  | free => cases hplace
  | last _ _ hf => cases hf
  | jump _ _ _ _ ih => exact ih (.inl (List.append_ne_nil_of_left_ne_nil (components_ne_nil _) _)) hplace

/-- A way to a free name that does not follow a last link ends with a name. -/
theorem Way.last_name (hw : Way t false i cur cs (.free d n)) : ∃ m, cs.getLast? = some (.name m) := by
  have hcons : ∀ {c : Component} {cs : List Component}, (∃ m, cs.getLast? = some (.name m)) →
      ∃ m, (c :: cs).getLast? = some (.name m) := by
    rintro c cs ⟨m, hm⟩
    exact ⟨m, by rw [List.getLast?_cons, hm]; rfl⟩
  generalize hplace : Place.free d n = end_ at hw
  induction hw with
  | stop => cases hplace
  | slash _ _ ih => exact hcons (ih hplace)
  | dot _ _ ih => exact hcons (ih hplace)
  | up _ _ ih => exact hcons (ih hplace)
  | down _ _ _ ih => exact hcons (ih hplace)
  | @free i cur n hd hn => exact ⟨n, rfl⟩
  | last => cases hplace
  | @jump i cur n target cs place hn hgo ht h ih =>
    obtain ⟨m, hm⟩ := ih hplace
    have hcs : cs ≠ [] := fun hnil => hgo ⟨hnil, rfl⟩
    rw [List.getLast?_append_of_ne_nil _ hcs] at hm
    exact hcons ⟨m, hm⟩

theorem way_slashes (hp : t.isDir p = true) (m : Nat) : Way t f 0 p (List.replicate m .slash) (.there p) := by
  induction m with
  | zero => exact .stop 0 p
  | succ m ih => exact .slash hp ih

/-- The two parts of a way along two lists of components. -/
theorem Way.append_inv (hds : ds ≠ []) (hw : Way t f i cur (cs ++ ds) place) :
    ∃ p j, Way t true i cur cs (.there p) ∧ Way t f j p ds place := by
  generalize hall : cs ++ ds = es at hw
  induction hw generalizing cs with
  | stop => exact absurd (List.append_eq_nil_iff.mp hall).2 hds
  | @slash i cur es place hd h ih | @dot i cur es place hd h ih | @up i cur es place hd h ih =>
    rcases List.append_eq_cons_iff.mp hall with ⟨rfl, rfl⟩ | ⟨cs, rfl, rfl⟩
    · refine ⟨cur, i, .stop i cur, ?_⟩
      first | exact .slash hd h | exact .dot hd h | exact .up hd h
    · obtain ⟨p, j, hcs, hrest⟩ := ih rfl
      refine ⟨p, j, ?_, hrest⟩
      first | exact .slash hd hcs | exact .dot hd hcs | exact .up hd hcs
  | @down i cur n x es place hn hx h ih =>
    rcases List.append_eq_cons_iff.mp hall with ⟨rfl, rfl⟩ | ⟨cs, rfl, rfl⟩
    · exact ⟨cur, i, .stop i cur, .down hn hx h⟩
    · obtain ⟨p, j, hcs, hrest⟩ := ih rfl
      exact ⟨p, j, .down hn hx hcs, hrest⟩
  | @free i cur n hd hn =>
    rcases List.append_eq_cons_iff.mp hall with ⟨rfl, rfl⟩ | ⟨cs, rfl, hnil⟩
    · exact ⟨cur, i, .stop i cur, .free hd hn⟩
    · exact absurd (List.append_eq_nil_iff.mp hnil.symm).2 hds
  | @last i cur n x hn hx hf =>
    rcases List.append_eq_cons_iff.mp hall with ⟨rfl, rfl⟩ | ⟨cs, rfl, hnil⟩
    · exact ⟨cur, i, .stop i cur, .last hn hx hf⟩
    · exact absurd (List.append_eq_nil_iff.mp hnil.symm).2 hds
  | @jump i cur n target es place hn hgo ht h ih =>
    rcases List.append_eq_cons_iff.mp hall with ⟨rfl, rfl⟩ | ⟨cs, rfl, rfl⟩
    · exact ⟨cur, i + 1, .stop (i + 1) cur, .jump hn hgo ht h⟩
    · obtain ⟨p, j, hcs, hrest⟩ := ih (List.append_assoc ..)
      exact ⟨p, j, .jump hn (fun hlast => nomatch hlast.2) ht hcs, hrest⟩

theorem Way.unique {place' : Place} (h : Way t f i cur cs place) (h' : Way t f i cur cs place') : place = place' :=
  Option.some.inj (h.walk_eq.symm.trans h'.walk_eq)

theorem trim_append (cs : List Component) : ∃ m, cs = trim cs ++ List.replicate m .slash := by
  refine ⟨(cs.reverse.takeWhile (· = .slash)).length, ?_⟩
  have hall : ∀ c ∈ cs.reverse.takeWhile (· = Component.slash), c = .slash := fun c hc => by
    simpa using List.mem_takeWhile_imp hc
  apply List.reverse_injective
  rw [trim, List.reverse_append, List.reverse_reverse, List.reverse_replicate, ← List.eq_replicate_of_mem hall,
    List.takeWhile_append_dropWhile]

namespace Kernel

variable {k k' : Kernel}

theorem find_iff : k.find f path = some p ↔ k.place f path (components path) = some (.there p) := by
  unfold find
  cases k.place f path (components path) with
  | none => simp
  | some place => cases place <;> simp

theorem place_iff : k.place f path cs = some place ↔ cstr path ≠ [] ∧
    Way k.disk f maxLinks (origin k.cwd path) cs place := by
  rw [← walk_iff]
  unfold Kernel.place
  by_cases h : cstr path = [] <;> simp [h]

theorem find_mono (h : k.disk ≤ k'.disk) (hcwd : k'.cwd = k.cwd) (hp : k.find f path = some p) :
    k'.find f path = some p := by
  rw [find_iff, place_iff] at hp ⊢
  rw [hcwd]
  exact ⟨hp.1, hp.2.mono h rfl⟩

/-- The place of a name below a path. -/
theorem place_child (hpath : ∀ b ∈ path, b ≠ 0) (hp : k.find true path = some p)
    (hn : Way k.disk f 0 p [.name n] place) :
    k.place f (path ++ 47 :: n.1) (components path ++ [.name n]) = some place := by
  rw [find_iff, place_iff, cstr_of_ne hpath] at hp
  obtain ⟨hne, hw⟩ := hp
  have horigin : origin k.cwd (path ++ 47 :: n.1) = origin k.cwd path := by
    unfold origin
    rw [List.head?_append_of_ne_nil _ hne]
  rw [place_iff, horigin, cstr_append_of_ne hpath]
  exact ⟨List.append_ne_nil_of_left_ne_nil hne _, hw.append (List.cons_ne_nil _ _) hn⟩

end Kernel

theorem components_child (hpath : ∀ b ∈ path, b ≠ 0) (n : Name) :
    components (path ++ 47 :: n.1) = components path ++ [.name n] := by
  rw [components_append hpath, components_name]

theorem trim_snoc (cs : List Component) (n : Name) : trim (cs ++ [.name n]) = cs ++ [.name n] := by
  rw [trim, List.reverse_append, List.reverse_singleton, List.singleton_append, List.dropWhile_cons_of_neg (by simp),
    List.reverse_cons, List.reverse_reverse]

namespace Kernel

variable {k k' : Kernel}

theorem find_child (hpath : ∀ b ∈ path, b ≠ 0) (hp : k.find true path = some p) (hx : k.disk.node (p ++ [n]) = some x)
    (hlink : ¬Linked x) : k.find f (path ++ 47 :: n.1) = some (p ++ [n]) := by
  rw [find_iff, components_child hpath]
  exact place_child hpath hp (.down hx hlink (.stop 0 _))

theorem entry_child (hpath : ∀ b ∈ path, b ≠ 0) (hp : k.find true path = some p)
    (hx : k.disk.node (p ++ [n]) = some x) :
    k.entry (path ++ 47 :: n.1) = some (p ++ [n]) := by
  have hplace : k.place false (path ++ 47 :: n.1) (components path ++ [.name n]) = some (.there (p ++ [n])) := by
    apply place_child hpath hp
    by_cases hlink : Linked x
    · exact .last hx hlink rfl
    · exact .down hx hlink (.stop 0 _)
  unfold entry
  rw [components_child hpath, trim_snoc, List.getLast?_concat, hplace]
  simp only [or_true, if_true]

theorem entry_iff : k.entry path = some p ↔ (∃ n, (trim (components path)).getLast? = some (.name n)) ∧
    k.place false path (trim (components path)) = some (.there p) ∧
      (k.disk.isDir p = true ∨ trim (components path) = components path) := by
  unfold entry
  constructor
  · intro h
    split at h
    next n q hlast hplace =>
      split at h
      next hdir =>
        cases h
        exact ⟨⟨n, hlast⟩, hplace, hdir⟩
      next => cases h
    next => cases h
  · rintro ⟨⟨n, hlast⟩, hplace, hdir⟩
    simp only [hlast, hplace, if_pos hdir]

theorem entry_mono (h : k.disk ≤ k'.disk) (hcwd : k'.cwd = k.cwd) (hp : k.entry path = some p) :
    k'.entry path = some p := by
  rw [entry_iff, place_iff] at hp ⊢
  obtain ⟨hlast, ⟨hne, hw⟩, hdir⟩ := hp
  rw [hcwd]
  exact ⟨hlast, ⟨hne, hw.mono h rfl⟩, hdir.imp_left (isDir_mono h)⟩

theorem find_isSome (hp : k.find f path = some p) : (k.disk.node p).isSome = true := by
  rw [find_iff, place_iff] at hp
  exact hp.2.isSome (.inl (components_ne_nil path))

theorem entry_isSome (hp : k.entry path = some p) : (k.disk.node p).isSome = true := by
  obtain ⟨⟨n, hlast⟩, hplace, -⟩ := entry_iff.mp hp
  refine (place_iff.mp hplace).2.isSome (.inl ?_)
  rintro hnil
  rw [hnil] at hlast
  cases hlast

/-- An entry that is not a link is what its path leads to. -/
theorem find_of_entry (hp : k.entry path = some p) (hlink : ∀ x, k.disk.node p = some x → ¬Linked x) :
    k.find true path = some p := by
  obtain ⟨-, hplace, hdir⟩ := entry_iff.mp hp
  obtain ⟨hne, hw⟩ := place_iff.mp hplace
  rw [find_iff, place_iff]
  refine ⟨hne, ?_⟩
  obtain ⟨m, hm⟩ := trim_append (components path)
  cases m with
  | zero =>
    rw [List.replicate_zero, List.append_nil] at hm
    rw [hm]
    exact hw.follow_there hlink
  | succ m =>
    have hdir : k.disk.isDir p = true := by
      rcases hdir with hdir | heq
      · exact hdir
      · rw [heq] at hm
        exact absurd (List.self_eq_append_right.mp hm) (by simp)
    rw [hm]
    exact (hw.follow_there hlink).append (by simp) (way_slashes hdir _)

theorem find_not_linked (hp : k.find true path = some p) : ∀ x, k.disk.node p = some x → ¬Linked x :=
  (place_iff.mp (find_iff.mp hp)).2.not_linked (.inl (components_ne_nil path))

theorem trim_of_free (hp : k.place false path (components path) = some (.free d n)) :
    trim (components path) = components path := by
  obtain ⟨m, hm⟩ := (place_iff.mp hp).2.last_name
  obtain ⟨cs, hcs⟩ := List.getLast?_eq_some_iff.mp hm
  rw [hcs, trim_snoc]

/-- A name that is free is free for a path that follows links too. -/
theorem place_follow (hp : k.place false path cs = some (.free d n)) : k.place true path cs = some (.free d n) := by
  rw [place_iff] at hp ⊢
  exact ⟨hp.1, hp.2.follow⟩

/-- Once there is an entry under a free name, the path leads to it. -/
theorem find_of_free (hle : k.disk ≤ k'.disk) (hcwd : k'.cwd = k.cwd)
    (hp : k.place false path (components path) = some (.free d n)) (hx : k'.disk.node (d ++ [n]) = some x)
    (hlink : ¬Linked x) : k'.find f path = some (d ++ [n]) := by
  have hfind : k'.find false path = some (d ++ [n]) := by
    rw [find_iff, place_iff]
    rw [place_iff] at hp
    rw [hcwd]
    exact ⟨hp.1, hp.2.reopen hle (.down hx hlink (.stop 0 _))⟩
  cases f with
  | false => exact hfind
  | true =>
    rw [find_iff, place_iff] at hfind ⊢
    exact ⟨hfind.1, hfind.2.follow_there fun y hy => Option.some.inj (hx.symm.trans hy) ▸ hlink⟩

theorem place_child_free (hpath : ∀ b ∈ path, b ≠ 0) (hp : k.find true path = some p) (hdir : k.disk.isDir p = true)
    (hn : k.disk.node (p ++ [n]) = none) :
    k.place f (path ++ 47 :: n.1) (components (path ++ 47 :: n.1)) = some (.free p n) := by
  rw [components_child hpath]
  exact place_child hpath hp (.free hdir hn)

theorem entry_of_free (hle : k.disk ≤ k'.disk) (hcwd : k'.cwd = k.cwd)
    (hp : k.place false path (components path) = some (.free d n)) (hx : k'.disk.node (d ++ [n]) = some x)
    (hlink : ¬Linked x) : k'.entry path = some (d ++ [n]) := by
  have htrim := trim_of_free hp
  rw [entry_iff, htrim]
  exact ⟨(place_iff.mp hp).2.last_name, find_iff.mp (find_of_free hle hcwd hp hx hlink), .inr rfl⟩

/-- Behind a file nothing is found. -/
theorem place_below_leaf (hpath : ∀ b ∈ path, b ≠ 0) (hp : k.find true path = some p) (hdir : k.disk.isDir p = false)
    (n : Name) : k.place f (path ++ 47 :: n.1) (components (path ++ 47 :: n.1)) = none := by
  have hway := (place_iff.mp (find_iff.mp hp)).2
  have hne : cstr path ≠ [] := (place_iff.mp (find_iff.mp hp)).1
  by_contra hsome
  obtain ⟨place, hplace⟩ := Option.ne_none_iff_exists'.mp hsome
  have horigin : origin k.cwd (path ++ 47 :: n.1) = origin k.cwd path := by
    unfold origin
    rw [List.head?_append_of_ne_nil _ (cstr_of_ne hpath ▸ hne)]
  rw [components_child hpath, place_iff, horigin] at hplace
  obtain ⟨p', j, hcs, hlast⟩ := hplace.2.append_inv (List.cons_ne_nil _ _)
  obtain rfl : p = p' := Place.there.inj (hway.unique hcs)
  have hisdir : k.disk.isDir p = true := by
    cases hlast with
    | down hn => exact isDir_of_snoc hn
    | free hd => exact hd
    | last hn => exact isDir_of_snoc hn
    | jump hn => exact isDir_of_snoc hn
  rw [hdir] at hisdir
  cases hisdir

/-- What a path without its last slashes leads to, if that is a directory. -/
theorem find_of_trim (hne : cstr path ≠ []) (hw : Way k.disk true maxLinks (origin k.cwd path)
    (trim (components path)) (.there p))
    (hdir : k.disk.isDir p = true) : k.find true path = some p := by
  rw [find_iff, place_iff]
  obtain ⟨m, hm⟩ := trim_append (components path)
  refine ⟨hne, ?_⟩
  rw [hm]
  cases m with
  | zero => rwa [List.replicate_zero, List.append_nil]
  | succ m => exact hw.append (by simp) (way_slashes hdir _)

end Kernel

end Srl.Posix
