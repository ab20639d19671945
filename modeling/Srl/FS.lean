import Srl.HttpResponse
import Srl.PosixWalk
import Srl.StrSection

namespace Srl.FS

open Bytes Session Posix

structure Permissions where
  owners : UInt8
  groups : UInt8
  others : UInt8
deriving DecidableEq

/-- `if (modes & mask) perms |= flag`. -/
def flagIf (modes mask : UInt32) (flag : UInt8) : UInt8 := if modes &&& mask ≠ 0 then flag else 0

/-- `if (perms & flag) modes |= mask`. -/
def maskIf (perms flag : UInt8) (mask : UInt32) : UInt32 := if perms &&& flag ≠ 0 then mask else 0

def ModesToPermissions (modes : UInt32) : Permissions where
  owners := flagIf modes 0o400 4 ||| flagIf modes 0o200 2 ||| flagIf modes 1 1
  groups := flagIf modes 0o040 4 ||| flagIf modes 0o020 2 ||| flagIf modes 0o010 1
  others := flagIf modes 0o004 4 ||| flagIf modes 0o002 2 ||| flagIf modes 0o001 1

def PermissionsToModes (permissions : Permissions) : UInt32 :=
  maskIf permissions.owners 4 0o400 ||| maskIf permissions.owners 2 0o200 ||| maskIf permissions.owners 1 0o100 |||
  maskIf permissions.groups 4 0o040 ||| maskIf permissions.groups 2 0o020 ||| maskIf permissions.groups 1 0o010 |||
  maskIf permissions.others 4 0o004 ||| maskIf permissions.owners 2 0o002 ||| maskIf permissions.owners 1 0o001

/-- What a call throws: `errno` is the `IOException` with the text of the error number, `fault` a call whose
behaviour is undefined. -/
inductive Thrown
  | FileNotFoundException (message : Bytes)
  | IOException (message : Bytes)
  | errno
  | fault
  | unfinished
deriving DecidableEq

/-- `throw IOException(String::Format(...))`. -/
def throwFormat {α : Type} (fmt printed : Bytes) : Method Kernel Thrown α :=
  match Format fmt printed with
  | some message => throw (.IOException message)
  | none => throw .fault

def throwNotFound {α : Type} (path : Bytes) : Method Kernel Thrown α :=
  throw (.FileNotFoundException (bytes "File Not Found: " ++ path))

/-- A call of the kernel, whose failure throws. -/
def perform (call : Kernel → Option Kernel) : Method Kernel Thrown Unit := fun k =>
  match call k with
  | some k' => (.ok (), k')
  | none => (.error .errno, k)

def Exists (k : Kernel) (path : Bytes) : Bool := (k.stat path).isSome

def IsDir (k : Kernel) (path : Bytes) : Bool :=
  match k.stat path with
  | some (.dir _) => true
  | _ => false

def IsFile (k : Kernel) (path : Bytes) : Bool :=
  match k.stat path with
  | some (.leaf (.file _ _)) => true
  | _ => false

def GetPermissions (path : Bytes) : Method Kernel Thrown Permissions := do
  match (← get).stat path with
  | some (.dir modes) | some (.leaf (.file modes _)) => pure (ModesToPermissions modes)
  | some (.leaf (.link _)) => throw .errno
  | none => throwNotFound path

/-- The loop of `Delete` over what `readdir` gives. -/
def deleteChildren (delete : Bytes → Method Kernel Thrown Nat) (recursive : Bool) :
    List Bytes → Nat → Method Kernel Thrown Nat
  | [], total => pure total
  | child :: children, total =>
    if child.same (bytes ".") ∨ child.same (bytes "..") then deleteChildren delete recursive children total
    else if recursive then do
      let _ ← delete child
      deleteChildren delete recursive children (total + 1)
    else pure (total + 1)

def Delete : Nat → Bytes → Bool → Method Kernel Thrown Nat
  | 0, _, _ => throw .unfinished
  | rounds + 1, path, recursive => do
    let k ← get
    if !Exists k path then throwNotFound path
    else if !IsDir k path then do
      perform (·.remove path)
      pure 1
    else
      match k.readdir path with
      | none =>
        throwFormat (bytes "failed to get handle for path: %s")
          (bytes "failed to get handle for path: " ++ cstr path)
      | some children => do
        let total ← deleteChildren (fun child => Delete rounds (path ++ bytes "/" ++ child) true) recursive children 0
        if !recursive ∧ 0 < total then
          throwFormat (bytes "can not delete directory with children unless recursive flag is true: %s")
            (bytes "can not delete directory with children unless recursive flag is true: " ++ cstr path)
        else do
          modify fun k => (k.remove path).getD k
          pure 0

/-- `MakeDir` for one directory. -/
def MakeDirOnly (path : Bytes) (permissions : Option Permissions) : Method Kernel Thrown Unit := do
  modify fun k => { k with umask := 0 }
  perform (·.mkdir path (PermissionsToModes (permissions.getD ⟨7, 7, 0⟩)))

/-- `section(sep, i, true)`; an empty piece that is not the last one comes with all that is behind it. -/
def sectionOf (path : Bytes) (i : Nat) : Bytes :=
  match (path.splitOn 47)[i]? with
  | none => []
  | some [] => ([47] : Bytes).intercalate ((path.splitOn 47).drop i)
  | some (b :: piece) => b :: piece

/-- The loop of `MakeDir` from the section `i` on. -/
def makeDirLoop (path : Bytes) (permissions : Option Permissions) : Nat → Nat → Bytes → Method Kernel Thrown Unit
  | 0, _, _ => pure ()
  | rounds + 1, i, new_path => do
    let new_path := new_path ++ sectionOf path i
    let k ← get
    if !Exists k new_path then MakeDirOnly new_path permissions
    makeDirLoop path permissions rounds (i + 1) (new_path ++ bytes "/")

def MakeDir (path : Bytes) (permissions : Option Permissions) (recursive : Bool) : Method Kernel Thrown Unit :=
  if recursive then
    let i := if path.charAt 0 = 47 then 1 else 0
    makeDirLoop path permissions (path.count 47 + 1 - i) i (if path.charAt 0 = 47 then bytes "/" else [])
  else MakeDirOnly path permissions

/-- The message of a `Copy` or a `Move` to a path that is there, with what stands for the path. -/
def alreadyExists (verb path : Bytes) : Bytes :=
  bytes "Can not " ++ verb ++ bytes " file to '" ++ path ++ bytes "' because it already exists! " ++
    List.replicate 53 32 ++
    bytes "Try setting the 'replace_existing' flag to write over the file"

/-- What `Copy` and `Move` do first. -/
def clear (verb from_path to_path : Bytes) (replace_existing : Bool) : Method Kernel Thrown Unit := do
  let k ← get
  if !Exists k from_path then throwNotFound from_path
  else if Exists k to_path then
    if replace_existing then do
      let _ ← Delete 1 to_path false
      pure ()
    else throwFormat (alreadyExists verb (bytes "%s")) (alreadyExists verb (cstr to_path))

def Move (from_path to_path : Bytes) (replace_existing : Bool) : Method Kernel Thrown Unit := do
  clear (bytes "move") from_path to_path replace_existing
  perform (·.rename from_path to_path)

/-- The loop that reads 4096 bytes at a time and writes them. -/
def copyLoop : Nat → Bytes → Bytes → Bytes
  | 0, _, written => written
  | rounds + 1, unread, written =>
    if unread.take 4096 = [] then written else copyLoop rounds (unread.drop 4096) (written ++ unread.take 4096)

def copyFile (from_path to_path : Bytes) : Method Kernel Thrown Unit := fun k =>
  match k.openRead from_path, k.openWrite to_path with
  | some data, some (p, opened) =>
    match opened.store p (copyLoop (data.length + 1) data []) with
    | some k' => (.ok (), k')
    | none => (.error .fault, opened)
  | _, _ => (.error .fault, k)

/-- The loop of `Copy` over what `readdir` gives. -/
def copyChildren (copy : Bytes → Method Kernel Thrown Unit) : List Bytes → Method Kernel Thrown Unit
  | [] => pure ()
  | child :: children => do
    let path := bytes "/" ++ child
    if path.same (bytes "/.") ∨ path.same (bytes "/..") then copyChildren copy children
    else do
      copy path
      copyChildren copy children

def Copy : Nat → Bytes → Bytes → Bool → Method Kernel Thrown Unit
  | 0, _, _, _ => throw .unfinished
  | rounds + 1, from_path, to_path, replace_existing => do
    clear (bytes "copy") from_path to_path replace_existing
    let k ← get
    if IsDir k from_path then do
      let perms ← GetPermissions from_path
      MakeDirOnly to_path (some perms)
      match (← get).readdir from_path with
      | none => throw .errno
      | some children => copyChildren (fun path => Copy rounds (from_path ++ path) (to_path ++ path) false) children
    else if IsFile k from_path then copyFile from_path to_path

end Srl.FS
