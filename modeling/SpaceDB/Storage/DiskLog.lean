import SpaceDB.Storage.FileSystem

namespace SpaceDB.Storage
open Lib

def diskLogHeaderSize : Nat := 8

def diskLogTombstoneSize : Int := -1

def maxDiskLogValueSize : Nat := 2 ^ 31 - 1

def maxDiskLogEntrySize : Nat := 2 ^ 32 - 1

def uint32 (x : Int) : Nat := (x % 2 ^ 32).toNat

def int32 (x : Nat) : Int := if x < 2 ^ 31 then x else x - 2 ^ 32

structure DiskLog where
  file : Path
  deriving DecidableEq

def newDisLog (name : Path) : FileProg Error DiskLog := do
  .check (.wrap "storage: opening disk log %q: %w" [.bytes name]) (← .perform (.openFile name))
  return ⟨name⟩

structure LogPosition where
  entryOffset : Nat
  entrySize : Nat
  deriving DecidableEq

def checkEntrySize (key value : Bytes) (deleted : Bool) : Except Error Unit :=
  if value.length > maxDiskLogValueSize then
    .error (.new "storage: value is too large: %d bytes" [.number value.length])
  else
    let entrySize := diskLogHeaderSize + key.length + if deleted then 0 else value.length
    if entrySize > maxDiskLogEntrySize then
      .error (.new "storage: log entry is too large: %d bytes" [.number entrySize])
    else .ok ()

def entryBytes (key value : Bytes) (deleted : Bool) : Bytes :=
  let valueSize : Int := if deleted then diskLogTombstoneSize else value.length
  putUint 4 key.length ++ putUint 4 (uint32 valueSize) ++ key ++ if deleted then [] else value

/-- `diskLog.writeEntry`. The buffered writer has room for the whole record, so
that nothing is written before `Flush`, and then all of it at once. -/
def DiskLog.writeEntry (d : DiskLog) (key value : Bytes) (deleted : Bool) :
    FileProg Error LogPosition := do
  .ofExcept (checkEntrySize key value deleted)
  let entryOffset ← .check (.wrap "storage: seeking to end of disk log: %w" [])
    (← .perform (.seekEnd d.file))
  .check (.wrap "storage: flushing disk log entry: %w" [])
    (← .perform (.write d.file (entryBytes key value deleted)))
  return ⟨entryOffset, diskLogHeaderSize + key.length + if deleted then 0 else value.length⟩

def DiskLog.readValue (d : DiskLog) (offset size : Nat) : FileProg Error Bytes := do
  .check (.wrap "storage: reading %d bytes at offset %d: %w" [.number size, .number offset])
    (← .perform (.readAt d.file offset size))

/-- `diskLog.readEntry`: the key and the value size of the record at an offset. -/
def DiskLog.readEntry (d : DiskLog) (offset : Nat) : FileProg Error (Bytes × Int) := do
  let header ← .check (.wrap "storage: reading log header at offset %d: %w" [.number offset])
    (← .perform (.readAt d.file offset diskLogHeaderSize))
  let keySize := uint (header.take 4)
  let valueSize := int32 (uint (header.drop 4))
  let key ← .check (.wrap "storage: reading log key at offset %d: %w" [.number offset])
    (← .perform (.readAt d.file (offset + diskLogHeaderSize) keySize))
  return (key, valueSize)

end SpaceDB.Storage
