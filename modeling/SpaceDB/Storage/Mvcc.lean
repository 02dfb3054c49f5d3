import SpaceDB.Storage.MvccKey

namespace SpaceDB.Storage
open Lib

/-- The snapshot a transaction fixes at Begin. The Go map of active versions
is only tested for membership and folded with `min`. -/
structure TransactionState where
  version : Version
  activeVersions : List Version
  deriving DecidableEq

def TransactionState.isVisible (s : TransactionState) (v : Version) : Bool :=
  if v ∈ s.activeVersions then false else decide (v ≤ s.version)

def engineSet (key : Bytes) (value : Slice) (wrap : Error → Error) : EngineProg Unit := do
  .check wrap (← .perform (.set key value))

def engineDelete (key : Bytes) (wrap : Error → Error) : EngineProg Unit := do
  .check wrap (← .perform (.delete key))

def scanActive : List (Except Error Entry) → Except Error (List Version)
  | [] => .ok []
  | .error e :: _ => .error (.wrap "storage: scanning active transactions: %w" [] e)
  | .ok entry :: rest =>
    match decodeMvccKey entry.key with
    | .error e => .error e
    | .ok key => (scanActive rest).map (key.versionField :: ·)

def loadNext (encodedNext : Slice) : Except Error Version :=
  match encodedNext with
  | none => .ok 1
  | some encoded =>
    (decodeVersion encoded).mapError (.wrap "storage: decoding next transaction version: %w" [])

/-- `MVCC.Begin`. The persisted counter is moved before the marker is set. -/
def MVCC.begin : EngineProg TransactionState := do
  let encodedNext ← .check (.wrap "storage: loading next transaction version: %w" [])
    (← .perform (.get nextVersionKey.encode))
  let next ← .ofExcept (loadNext encodedNext)
  let activeVersions ← .ofExcept (scanActive (← .perform (.scanPrefix activeTransactionPrefix)))
  engineSet nextVersionKey.encode (some (encodeVersion (next + 1)))
    (.wrap "storage: saving next transaction version: %w" [])
  engineSet (activeTransactionKey next).encode none
    (.wrap "storage: marking transaction %d active: %w" [.number next.val])
  return ⟨next, activeVersions⟩

/-- The keys a finishing transaction has to delete, taken from the scan of its
write set: `targets` names those for one decoded write record. -/
def scanWrites (version : Version) (targets : Bytes → MvccKey → List Bytes) :
    List (Except Error Entry) → Except Error (List Bytes)
  | [] => .ok []
  | .error e :: _ =>
    .error (.wrap "storage: scanning transaction %d writes: %w" [.number version.val] e)
  | .ok entry :: rest =>
    match decodeMvccKey entry.key with
    | .error e => .error e
    | .ok key => (scanWrites version targets rest).map (targets entry.key key ++ ·)

def deleteAll (wrap : Bytes → Error → Error) : List Bytes → EngineProg Unit
  | [] => .done ()
  | key :: keys => do
    engineDelete key (wrap key)
    deleteAll wrap keys

/-- `MVCCTransaction.Commit`: the write records go first, the marker last. -/
def MVCCTransaction.commit (t : TransactionState) : EngineProg Unit := do
  let entries ← .perform (.scanPrefix (transactionWritePrefix t.version))
  let writeKeys ← .ofExcept (scanWrites t.version (fun key _ => [key]) entries)
  deleteAll (fun key => .wrap "storage: deleting transaction-write key %x: %w" [.bytes key])
    writeKeys
  engineDelete (activeTransactionKey t.version).encode
    (.wrap "storage: marking transaction %d committed: %w" [.number t.version.val])

/-- `MVCCTransaction.Rollback`: each write record is followed by the version
it points at. -/
def MVCCTransaction.rollback (t : TransactionState) : EngineProg Unit := do
  let entries ← .perform (.scanPrefix (transactionWritePrefix t.version))
  let allKeys ← .ofExcept (scanWrites t.version
    (fun key decoded => [key, (versionedKey decoded.rawKey decoded.versionField).encode]) entries)
  deleteAll (fun key => .wrap "storage: deleting key %x: %w" [.bytes key]) allKeys
  -- this error drops its cause
  engineDelete (activeTransactionKey t.version).encode
    (fun _ => .new "marking transaction %d rolled back" [.number t.version.val])

def decodeVersionedValue (encoded : Slice) : Except Error Slice :=
  match encoded.getD [] with
  | [] => .error (.new "storage: truncated versioned value" [])
  | tag :: value =>
    if tag = 0 then .ok none
    else if tag = 1 then .ok (some value)
    else .error (.new "storage: invalid versioned value tag %d" [.number tag.val])

/-- The versions of one key from newest to oldest, up to the first visible. -/
def getLoop (t : TransactionState) (key : Bytes) : List (Except Error Entry) → Except Error Slice
  | [] => .ok none
  | .error e :: _ =>
    .error (.wrap "storage: scanning versions for key %x: %w" [.bytes key] e)
  | .ok entry :: rest =>
    match decodeMvccKey entry.key with
    | .error e => .error e
    | .ok decoded =>
      if !t.isVisible decoded.versionField then getLoop t key rest
      else decodeVersionedValue entry.value

/-- `MVCCTransaction.Get`. The upper bound wraps to version 0 for the last version. -/
def MVCCTransaction.get (t : TransactionState) (key : Bytes) : EngineProg Slice := do
  let start := (versionedKey key 0).encode
  let stop := (versionedKey key (t.version + 1)).encode
  .ofExcept (getLoop t key (← .perform (.scanReverse (some start) (some stop))))

/-- The variables `ScanPrefix` carries from entry to entry. -/
structure ScanState where
  entries : List Entry
  currentKey : Bytes
  currentValue : Slice
  currentVisible : Bool
  deriving DecidableEq

def ScanState.flush (s : ScanState) : List Entry :=
  if s.currentVisible then s.entries ++ [⟨s.currentKey, s.currentValue⟩] else s.entries

/-- A new raw key flushes the one before it. -/
def ScanState.turn (s : ScanState) (rawKey : Bytes) : ScanState :=
  if rawKey ≠ s.currentKey then ⟨s.flush, rawKey, none, false⟩ else s

def scanLoop (t : TransactionState) :
    ScanState → List (Except Error Entry) → Except Error ScanState
  | s, [] => .ok s
  | _, .error e :: _ => .error e
  | s, .ok raw :: rest =>
    match decodeMvccKey raw.key with
    | .error e => .error e
    | .ok decoded =>
      if !t.isVisible decoded.versionField then scanLoop t (s.turn decoded.rawKey) rest
      else match decodeVersionedValue raw.value with
        | .error e => .error e
        | .ok value =>
          scanLoop t { s.turn decoded.rawKey with
            currentValue := value, currentVisible := value.isSome } rest

/-- `MVCCTransaction.ScanPrefix`; the nil start key equals an empty raw key. -/
def MVCCTransaction.scanPrefix (t : TransactionState) (start : Bytes) :
    EngineProg (List Entry) := do
  let entries ← .perform (.scanPrefix (versionedKeyPrefix start))
  let last ← .ofExcept (scanLoop t ⟨[], [], none, false⟩ entries)
  return last.flush

def writeConflict : Error := .new "storage: write conflict" []

/-- Only the newest version in the range is looked at. -/
def checkNewest (t : TransactionState) (rawKey : Bytes) :
    List (Except Error Entry) → Except Error Unit
  | [] => .ok ()
  | .error e :: _ =>
    .error (.wrap "storage: scanning versions for key %x: %w" [.bytes rawKey] e)
  | .ok entry :: _ =>
    match decodeMvccKey entry.key with
    | .error e => .error e
    | .ok key => if !t.isVisible key.versionField then .error writeConflict else .ok ()

/-- The lowest version that could conflict. -/
def TransactionState.fromVersion (t : TransactionState) : Version :=
  t.activeVersions.foldl min (t.version + 1)

def encodeVersionedValue (value : Bytes) (deleted : Bool) : Bytes :=
  if deleted then [0] else 1 :: value

def MVCCTransaction.write (t : TransactionState) (rawKey value : Bytes) (deleted : Bool) :
    EngineProg Unit := do
  let start := (versionedKey rawKey t.fromVersion).encode
  let stop := (versionedKey rawKey maxVersion).encode ++ [0]
  .ofExcept (checkNewest t rawKey (← .perform (.scanReverse (some start) (some stop))))
  engineSet (transactionWriteKey t.version rawKey).encode none
    (.wrap "storage: recording transaction write: %w" [])
  engineSet (versionedKey rawKey t.version).encode (some (encodeVersionedValue value deleted))
    (.wrap "storage: writing version %d for key %x: %w" [.number t.version.val, .bytes rawKey])

def MVCCTransaction.set (t : TransactionState) (key value : Bytes) : EngineProg Unit :=
  write t key value false

def MVCCTransaction.delete (t : TransactionState) (key : Bytes) : EngineProg Unit :=
  write t key [] true

end SpaceDB.Storage
