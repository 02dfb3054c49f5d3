import SpaceDB.Storage.DiskLog

namespace SpaceDB.Storage
open Lib

def errDiskEngineClosed : Error := .new "storage: disk engine closed" []

/-- The B-tree of the engine, from each key to the newest record of it. -/
abbrev Keydir := OrderedMap Bytes LogPosition

structure DiskEngine where
  keydir : Keydir
  log : DiskLog
  fileLock : Path

def joinErrors : Option Error → Option Error → Option Error
  | some e, some e' => some (.join e e')
  | some e, none => some e
  | none, e => e

def errorOf : Except Error α → Option Error
  | .ok _ => none
  | .error e => some e

/-- The number of value bytes that a value size in a header stands for. -/
def storedValueSize (valueSize : Int) : Option Nat :=
  if valueSize = diskLogTombstoneSize then some 0
  else if 0 ≤ valueSize then some valueSize.toNat
  else none

/-- What one record of the log does to the index, when it passes the checks of
`rebuildKeydir`. The answer is the index and the size of the record. -/
def indexEntry (fileSize offset : Nat) (keydir : Keydir) (key : Bytes) (valueSize : Int) :
    Except Error (Keydir × Nat) :=
  match storedValueSize valueSize with
  | none =>
    .error (.new "storage: invalid value size %d at offset %d" [.number valueSize, .number offset])
  | some stored =>
    let entrySize := diskLogHeaderSize + key.length + stored
    if entrySize > maxDiskLogEntrySize ∨ entrySize > fileSize - offset then
      .error (.new "storage: invalid log entry size %d at offset %d"
        [.number entrySize, .number offset])
    else if valueSize = diskLogTombstoneSize then .ok (keydir.erase key, entrySize)
    else .ok (keydir.insert key ⟨offset, entrySize⟩, entrySize)

/-- The loop of `rebuildKeydir`. Every record has a header, so that there are
never more rounds than bytes. -/
def rebuildLoop (log : DiskLog) (fileSize : Nat) : Nat → Nat → Keydir → FileProg Error Keydir
  | 0, _, keydir => .done keydir
  | rounds + 1, offset, keydir =>
    if offset < fileSize then do
      let (key, valueSize) ← (log.readEntry offset).mapError
        (.wrap "storage: reading log record at offset %d: %w" [.number offset])
      let (keydir, entrySize) ← .ofExcept (indexEntry fileSize offset keydir key valueSize)
      rebuildLoop log fileSize rounds (offset + entrySize) keydir
    else .done keydir

def rebuildKeydir (log : DiskLog) : FileProg Error Keydir := do
  let fileSize ← .check (.wrap "storage: reading disk log metadata: %w" [])
    (← .perform (.stat log.file))
  rebuildLoop log fileSize fileSize 0 .empty

def lockPath (name : Path) : Path := name ++ [46, 108, 111, 99, 107]

def newDiskEngine (name : Path) : FileProg Error DiskEngine := do
  let locked ← .check (.wrap "storage: locking %q: %w" [.bytes name])
    (← .perform (.tryLock (lockPath name)))
  if !locked then .fail (.new "storage: %q is locked by another process" [.bytes name])
  else match ← (newDisLog name).attempt with
  | .error e => do
    let _ ← .perform (.unlock (lockPath name))
    .fail e
  | .ok log => match ← (rebuildKeydir log).attempt with
    | .error e => do
      let _ ← .perform (.close log.file)
      let _ ← .perform (.unlock (lockPath name))
      .fail (.wrap "storage: rebuilding keydir from %q: %w" [.bytes name] e)
    | .ok keydir => return ⟨keydir, log, lockPath name⟩

def DiskLog.readLogValue (log : DiskLog) (position : LogPosition) : FileProg Error Bytes := do
  let (key, valueSize) ← log.readEntry position.entryOffset
  if valueSize < 0 then
    .fail (.new "storage: invalid indexed value size %d at offset %d"
      [.number valueSize, .number position.entryOffset])
  else
    let entrySize := diskLogHeaderSize + key.length + valueSize.toNat
    if entrySize ≠ position.entrySize then
      .fail (.new "storage: entry size mismatch at offset %d: index %d, log %d"
        [.number position.entryOffset, .number position.entrySize, .number entrySize])
    else
      log.readValue (position.entryOffset + diskLogHeaderSize + key.length) valueSize.toNat

def DiskEngine.set (d : DiskEngine) (key value : Bytes) : FileProg Error DiskEngine := do
  let position ← (d.log.writeEntry key value false).mapError
    (.wrap "storage: setting key %q: %w" [.bytes key])
  return { d with keydir := d.keydir.insert key position }

def DiskEngine.get (d : DiskEngine) (key : Bytes) : FileProg Error Slice :=
  match d.keydir.find? key with
  | none => .done none
  | some position => do
    let value ← (d.log.readLogValue position).mapError
      (.wrap "storage: getting key %q: %w" [.bytes key])
    return some value

def DiskEngine.delete (d : DiskEngine) (key : Bytes) : FileProg Error DiskEngine := do
  let _ ← (d.log.writeEntry key [] true).mapError
    (.wrap "storage: deleting key %q: %w" [.bytes key])
  return { d with keydir := d.keydir.erase key }

/-- The callback of a descending scan: it skips keys from `stop` on, which the
B-tree offers up to `stop` itself, and ends at the first key below `start`. -/
def appendReverseItems (start stop : Slice) :
    List (Bytes × LogPosition) → List (Bytes × LogPosition)
  | [] => []
  | item :: rest =>
    if stop.any (fun e => decide (e ≤ item.1)) then appendReverseItems start stop rest
    else if start.any (fun b => decide (item.1 < b)) then []
    else item :: appendReverseItems start stop rest

def DiskEngine.snapshotRange (d : DiskEngine) (start stop : Slice) (reverse : Bool) :
    List (Bytes × LogPosition) :=
  if start.any (fun b => stop.any (fun e => decide (e ≤ b))) then []
  else if !reverse then d.keydir.between start stop
  else match stop with
    | some e =>
      appendReverseItems start stop (d.keydir.entries.filter (fun i => decide (i.1 ≤ e))).reverse
    | none => appendReverseItems start stop d.keydir.entries.reverse

/-- The loop of `scan` over a snapshot; it ends at the first error. -/
def DiskEngine.readItems (d : DiskEngine) :
    List (Bytes × LogPosition) → FileProg ε (List (Except Error Entry))
  | [] => .done []
  | (key, position) :: rest => do
    match ← (d.log.readLogValue position).attempt with
    | .error e => return [.error (.wrap "storage: reading scanned key %q: %w" [.bytes key] e)]
    | .ok value => return .ok ⟨key, some value⟩ :: (← d.readItems rest)

def DiskEngine.scan (d : DiskEngine) (start stop : Slice) (reverse : Bool) :
    FileProg ε (List (Except Error Entry)) :=
  d.readItems (d.snapshotRange start stop reverse)

def DiskEngine.close (d : DiskEngine) : FileProg ε (Option Error) := do
  let err ← .perform (.close d.log.file)
  let unlockErr ← .perform (.unlock d.fileLock)
  return joinErrors (errorOf err) (errorOf unlockErr)

end SpaceDB.Storage
