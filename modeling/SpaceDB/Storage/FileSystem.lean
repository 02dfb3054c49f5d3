import Mathlib.Algebra.Order.BigOperators.Group.List
import SpaceDB.Storage.Engine

namespace SpaceDB.Storage
open Lib

abbrev Path := Bytes

/-- The calls into the file system and the file lock. An open file is known by
its path: no call moves a file while the engine has it open. -/
inductive FileCall where
  /-- `flock.TryLockContext`; when its time is over it returns the error of the context. -/
  | tryLock (path : Path)
  | unlock (path : Path)
  /-- `os.OpenFile` with O_CREATE, O_APPEND and O_RDWR. -/
  | openFile (path : Path)
  /-- `os.CreateTemp`: a new file whose name starts as given. -/
  | createTemp (start : Path)
  | seekEnd (file : Path)
  /-- A write at the end of the file. -/
  | write (file : Path) (data : Bytes)
  | readAt (file : Path) (offset size : Nat)
  | stat (file : Path)
  | sync (file : Path)
  | close (file : Path)
  | rename (source target : Path)
  | remove (path : Path)
  deriving DecidableEq

@[reducible] def FileRet : FileCall → Type
  | .tryLock _ => Except Error Bool
  | .createTemp _ => Except Error Path
  | .seekEnd _ | .stat _ => Except Error Nat
  | .readAt _ _ _ => Except Error Bytes
  | .unlock _ | .openFile _ | .write _ _ | .sync _ | .close _ | .rename _ _ | .remove _ =>
    Except Error Unit

abbrev FileProg := Prog FileCall FileRet

abbrev Files := OrderedMap Path Bytes

structure Disk where
  files : Files
  locked : List Path

/-- The names `os.CreateTemp` makes up. It creates a file only under a name
that is not taken. -/
structure TempNames where
  suffix : Files → Path → Bytes
  fresh : ∀ (files : Files) (start : Path), files.find? (start ++ suffix files start) = none

/-- Names that are longer than all those that are taken. -/
def TempNames.longest : TempNames where
  suffix files _ := List.replicate ((files.entries.map fun e => e.1.length).sum + 1) 0
  fresh := by
    intro files start
    rw [OrderedMap.find?_eq_none]
    intro e he heq
    have hle := List.single_le_sum (fun _ _ => Nat.zero_le _) _
      (List.mem_map_of_mem (f := fun e : Path × Bytes => e.1.length) he)
    have hlen := congrArg List.length heq
    simp only [List.length_append, List.length_replicate] at hlen
    omega

def notExist : Error := .new "file does not exist" []

def deadlineExceeded : Error := .new "context deadline exceeded" []

def eof : Error := .new "EOF" []

/-- `ReadAt` fills the whole buffer or fails; an empty buffer is always full. -/
def readBytes (content : Bytes) (offset size : Nat) : Except Error Bytes :=
  if size = 0 then .ok []
  else if offset + size ≤ content.length then .ok ((content.drop offset).take size)
  else .error eof

/-- A file system on which no call fails without reason. A file can
still be read after a close, also after one that is made to fail. -/
def fileSystem (names : TempNames) : Handler FileCall FileRet Disk
  | .tryLock path, d =>
    if path ∈ d.locked then (.error deadlineExceeded, d)
    else (.ok true, { d with locked := path :: d.locked })
  | .unlock path, d => (.ok (), { d with locked := d.locked.filter (fun p => decide (p ≠ path)) })
  | .openFile path, d =>
    (.ok (), if (d.files.find? path).isSome then d else { d with files := d.files.insert path [] })
  | .createTemp start, d =>
    let path := start ++ names.suffix d.files start
    (.ok path, { d with files := d.files.insert path [] })
  | .seekEnd file, d | .stat file, d =>
    (((d.files.find? file).map List.length).elim (.error notExist) .ok, d)
  | .write file data, d =>
    match d.files.find? file with
    | some content => (.ok (), { d with files := d.files.insert file (content ++ data) })
    | none => (.error notExist, d)
  | .readAt file offset size, d =>
    ((d.files.find? file).elim (.error notExist) (readBytes · offset size), d)
  | .sync _, d | .close _, d => (.ok (), d)
  | .rename source target, d =>
    match d.files.find? source with
    | some content => (.ok (), { d with files := (d.files.erase source).insert target content })
    | none => (.error notExist, d)
  | .remove path, d =>
    if (d.files.find? path).isSome then (.ok (), { d with files := d.files.erase path })
    else (.error notExist, d)

/-- A call that fails with the given error. A write may have got some of its
bytes into the file, but never all of them. -/
structure FileFault where
  error : Error
  written : Nat

def FileFault.answer (f : FileFault) : (c : FileCall) → FileRet c
  | .tryLock _ | .createTemp _ | .seekEnd _ | .stat _ | .readAt _ _ _ | .unlock _ | .openFile _
  | .write _ _ | .sync _ | .close _ | .rename _ _ | .remove _ => .error f.error

def FileFault.after (f : FileFault) (c : FileCall) (d : Disk) : Disk :=
  match c with
  | .write file data =>
    match d.files.find? file with
    | some content =>
      { d with files := d.files.insert file (content ++ data.dropLast.take f.written) }
    | none => d
  | _ => d

structure FaultyDisk where
  disk : Disk
  plan : List (Option FileFault)

/-- A file system on which calls fail as planned; none fails after the plan. -/
def faultyFiles (names : TempNames) : Handler FileCall FileRet FaultyDisk
  | c, s =>
    match s.plan with
    | some f :: plan => (f.answer c, ⟨f.after c s.disk, plan⟩)
    | none :: plan => ((fileSystem names c s.disk).1, ⟨(fileSystem names c s.disk).2, plan⟩)
    | [] => ((fileSystem names c s.disk).1, ⟨(fileSystem names c s.disk).2, []⟩)

end SpaceDB.Storage
