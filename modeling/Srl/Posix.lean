import Srl.BytesFind
import Srl.FileTree
import Srl.Occurrences

namespace Srl.Posix

open Bytes

/-- The name of an entry in a directory. -/
abbrev Name := { n : Bytes // n ≠ [] ∧ n ≠ [46] ∧ n ≠ [46, 46] ∧ 47 ∉ n ∧ 0 ∉ n }

inductive Item
  | file (mode : UInt32) (data : Bytes)
  | link (target : Bytes)
deriving DecidableEq

abbrev Path := List Name

abbrev Disk := FileTree Name UInt32 Item

/-- What the calls of a process go to: the disk, its working directory and its `umask`. -/
structure Kernel where
  disk : Disk
  cwd : Path
  umask : UInt32

/-- What stands between two slashes of a path. -/
inductive Component
  | slash
  | dot
  | up
  | name (n : Name)
deriving DecidableEq

def component (piece : Bytes) (h : 47 ∉ piece ∧ 0 ∉ piece) : Component :=
  if he : piece = [] then .slash
  else if hd : piece = [46] then .dot
  else if hu : piece = [46, 46] then .up
  else .name ⟨piece, he, hd, hu, h.1, h.2⟩

theorem pieces_valid (path : Bytes) : ∀ piece ∈ (cstr path).splitOn 47, 47 ∉ piece ∧ 0 ∉ piece := by
  intro piece hp
  refine ⟨Occurrences.not_mem_splitOn 47 _ hp, fun hz => ?_⟩
  exact ne_of_mem_cstr (Occurrences.mem_of_mem_splitOn hp hz) rfl

def components (path : Bytes) : List Component := ((cstr path).splitOn 47).pmap component (pieces_valid path)

/-- Where a path leads: to an entry, or to a name that is free in a directory. -/
inductive Place
  | there (p : Path)
  | free (dir : Path) (n : Name)
deriving DecidableEq

def origin (cur : Path) (path : Bytes) : Path := if path.head? = some 47 then [] else cur

/-- The way from a directory along the components of a path; `jump` goes on behind a link. -/
def walkWith (t : Disk) (follow : Bool) (jump : Path → Bytes → List Component → Option Place) :
    Path → List Component → Option Place
  | cur, [] => some (.there cur)
  | cur, c :: cs =>
    if t.isDir cur then
      match c with
      | .slash | .dot => walkWith t follow jump cur cs
      | .up => walkWith t follow jump cur.dropLast cs
      | .name n =>
        match t.node (cur ++ [n]) with
        | none => if cs = [] then some (.free cur n) else none
        | some (.leaf (.link target)) =>
          if cs = [] ∧ follow = false then some (.there (cur ++ [n])) else jump cur target cs
        | some _ => walkWith t follow jump (cur ++ [n]) cs
    else none

/-- A way that passes through at most so many links. -/
def walk (t : Disk) (follow : Bool) : Nat → Path → List Component → Option Place
  | 0 => walkWith t follow fun _ _ _ => none
  | links + 1 => walkWith t follow fun cur target cs =>
    if cstr target = [] then none else walk t follow links (origin cur target) (components target ++ cs)

def maxLinks : Nat := 40

namespace Kernel

def place (k : Kernel) (follow : Bool) (path : Bytes) (cs : List Component) : Option Place :=
  if cstr path = [] then none else walk k.disk follow maxLinks (origin k.cwd path) cs

/-- The entry that a path leads to. -/
def find (k : Kernel) (follow : Bool) (path : Bytes) : Option Path :=
  match k.place follow path (components path) with
  | some (.there p) => some p
  | _ => none

def stat (k : Kernel) (path : Bytes) : Option (FileTree.Node UInt32 Item) := (k.find true path).bind k.disk.node

/-- What `readdir` gives for a directory. -/
def readdir (k : Kernel) (path : Bytes) : Option (List Bytes) :=
  match k.find true path with
  | some p => if k.disk.isDir p then some ([46] :: [46, 46] :: (k.disk.names p).map Subtype.val) else none
  | none => none

end Kernel

/-- The components without the slashes at the end. -/
def trim (cs : List Component) : List Component := (cs.reverse.dropWhile (· = .slash)).reverse

namespace Kernel

def mkdir (k : Kernel) (path : Bytes) (mode : UInt32) : Option Kernel :=
  match k.place false path (trim (components path)) with
  | some (.free dir n) =>
    if h : k.disk.isDir dir = true ∧ k.disk.node (dir ++ [n]) = none then
      some { k with disk := k.disk.add dir n (.dir (mode &&& 0o1777 &&& ~~~k.umask)) h.1 h.2 }
    else none
  | _ => none

/-- The entry that the last name of a path stands for. -/
def entry (k : Kernel) (path : Bytes) : Option Path :=
  match (trim (components path)).getLast?, k.place false path (trim (components path)) with
  | some (.name _), some (.there p) => if k.disk.isDir p ∨
    trim (components path) = components path then some p else none
  | _, _ => none

def remove (k : Kernel) (path : Bytes) : Option Kernel :=
  match k.entry path with
  | some p =>
    if h : p ≠ [] ∧ k.disk.names p = [] then some { k with disk := k.disk.prune p h.1 } else none
  | none => none

/-- Puts the entry `p` under a free name. -/
def moveTo (k : Kernel) (p dir : Path) (n : Name) : Option Kernel :=
  if h : p ≠ [] ∧ k.disk.isDir dir = true ∧ k.disk.node (dir ++ [n]) = none ∧ ¬p <+: dir then
    some { k with disk := k.disk.move p dir n h.1 h.2.1 h.2.2.1 h.2.2.2 }
  else none

/-- `rename`, which replaces a file by a file and an empty directory by a directory. -/
def rename (k : Kernel) (old new : Bytes) : Option Kernel :=
  match k.entry old, (trim (components new)).getLast? with
  | some p, some (.name _) =>
    if k.disk.isDir p ∨ trim (components new) = components new then
      match k.place false new (trim (components new)) with
      | some (.free dir m) => k.moveTo p dir m
      | some (.there q) =>
        if q = p then some k
        else if h : q ≠ [] ∧ k.disk.names q = [] ∧ k.disk.isDir q = k.disk.isDir p ∧ ¬p <+: q then
          { k with disk := k.disk.prune q h.1 }.moveTo p q.dropLast (q.getLast h.1)
        else none
      | none => none
    else none
  | _, _ => none

/-- `fopen` to read, and the bytes that there are to read. -/
def openRead (k : Kernel) (path : Bytes) : Option Bytes :=
  match k.stat path with
  | some (.leaf (.file _ data)) => some data
  | _ => none

/-- Other bytes in a file. -/
def store (k : Kernel) (p : Path) (data : Bytes) : Option Kernel :=
  match hp : k.disk.node p with
  | some (.leaf (.file mode _)) => some { k with disk := k.disk.assign p (.file mode data) ⟨_, hp⟩ }
  | _ => none

/-- `fopen` to write: a file that is there is emptied, a name that is free gets a file. -/
def openWrite (k : Kernel) (path : Bytes) : Option (Path × Kernel) :=
  match k.place true path (components path) with
  | some (.there p) => (k.store p []).map (p, ·)
  | some (.free dir n) =>
    if h : k.disk.isDir dir = true ∧ k.disk.node (dir ++ [n]) = none then
      some (dir ++ [n], { k with disk := k.disk.add dir n (.leaf (.file (0o666 &&& ~~~k.umask) [])) h.1 h.2 })
    else none
  | none => none

end Kernel

end Srl.Posix
