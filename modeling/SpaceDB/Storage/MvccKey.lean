import Mathlib.Tactic.NormNum
import SpaceDB.Storage.Engine

namespace SpaceDB.Storage
open Lib

/-- Go's uint64: increments wrap around. -/
abbrev Version := Fin (2 ^ 64)

def maxVersion : Version := ⟨2 ^ 64 - 1, by norm_num⟩

def mvccMetadataPrefix : Bytes := [0, 115, 112, 97, 99, 101, 100, 98, 0]

inductive MvccKeyKind where
  | nextVersion
  | txnActive
  | txnWrite
  | version
  deriving DecidableEq

def MvccKeyKind.byte : MvccKeyKind → Byte
  | .nextVersion => 0
  | .txnActive => 1
  | .txnWrite => 2
  | .version => 3

inductive MvccKey where
  | nextVersion
  | txnActive (v : Version)
  | txnWrite (v : Version) (rawKey : Bytes)
  | version (rawKey : Bytes) (v : Version)
  deriving DecidableEq

/-- The struct's version field, zero where the kind has none. -/
def MvccKey.versionField : MvccKey → Version
  | .nextVersion => 0
  | .txnActive v => v
  | .txnWrite v _ => v
  | .version _ v => v

/-- The struct's rawKey field, empty where the kind has none. -/
def MvccKey.rawKey : MvccKey → Bytes
  | .nextVersion => []
  | .txnActive _ => []
  | .txnWrite _ k => k
  | .version k _ => k

def nextVersionKey : MvccKey := .nextVersion

def activeTransactionKey (v : Version) : MvccKey := .txnActive v

def transactionWriteKey (v : Version) (rawKey : Bytes) : MvccKey := .txnWrite v rawKey

def versionedKey (rawKey : Bytes) (v : Version) : MvccKey := .version rawKey v

def mvccKeyKindPrefix (kind : MvccKeyKind) : Bytes := mvccMetadataPrefix ++ [kind.byte]

def appendEscapedRawKey (dst rawKey : Bytes) : Bytes :=
  rawKey.foldl (fun dst b => if b = 0 then dst ++ [0, 255] else dst ++ [b]) dst

def appendTerminatedRawKey (dst rawKey : Bytes) : Bytes :=
  appendEscapedRawKey dst rawKey ++ [0, 0]

def appendUint64 (dst : Bytes) (v : Version) : Bytes := dst ++ putUint 8 v.val

def MvccKey.encode : MvccKey → Bytes
  | .nextVersion => mvccKeyKindPrefix .nextVersion
  | .txnActive v => appendUint64 (mvccKeyKindPrefix .txnActive) v
  | .txnWrite v k => appendTerminatedRawKey (appendUint64 (mvccKeyKindPrefix .txnWrite) v) k
  | .version k v => appendUint64 (appendTerminatedRawKey (mvccKeyKindPrefix .version) k) v

def activeTransactionPrefix : Bytes := mvccKeyKindPrefix .txnActive

def transactionWritePrefix (v : Version) : Bytes :=
  appendUint64 (mvccKeyKindPrefix .txnWrite) v

def versionedKeyPrefix (rawPrefix : Bytes) : Bytes :=
  appendEscapedRawKey (mvccKeyKindPrefix .version) rawPrefix

def encodeVersion (v : Version) : Bytes := putUint 8 v.val

def decodeVersion (encoded : Bytes) : Except Error Version :=
  if encoded.length ≠ 8 then
    .error (.new "storage: invalid version encoding: got %d bytes, want 8" [.number encoded.length])
  else .ok (Fin.ofNat (2 ^ 64) (uint encoded))

/-- The raw key up to its terminator `00 00`, and what follows it. -/
def decodeRawKey : Bytes → Except Error (Bytes × Bytes)
  | [] => .error (.new "storage: raw key has no terminator" [])
  | b :: rest =>
    if b ≠ 0 then (decodeRawKey rest).map (fun (k, remaining) => (b :: k, remaining))
    else match rest with
      | [] => .error (.new "storage: truncated raw-key escape" [])
      | c :: rest =>
        if c = 0 then .ok ([], rest)
        else if c = 255 then (decodeRawKey rest).map (fun (k, remaining) => (0 :: k, remaining))
        else .error (.new "storage: invalid raw-key escape 00 %02x" [.number c.val])

def decodeTxnWrite (payload : Bytes) : Except Error MvccKey :=
  if payload.length < 8 then .error (.new "storage: truncated transaction-write version" [])
  else match decodeRawKey (payload.drop 8) with
    | .error e => .error (.wrap "storage: decoding transaction-write key: %w" [] e)
    | .ok (rawKey, remaining) =>
      if remaining.length ≠ 0 then
        .error (.new "storage: transaction-write key has %d trailing bytes"
          [.number remaining.length])
      else .ok (.txnWrite (Fin.ofNat (2 ^ 64) (uint (payload.take 8))) rawKey)

def decodeVersioned (payload : Bytes) : Except Error MvccKey :=
  match decodeRawKey payload with
  | .error e => .error (.wrap "storage: decoding versioned key: %w" [] e)
  | .ok (rawKey, remaining) =>
    match decodeVersion remaining with
    | .error e => .error (.wrap "storage: decoding versioned-key version: %w" [] e)
    | .ok v => .ok (.version rawKey v)

/-- The decoder checks lengths, the tag and every escape; stored keys may be
damaged. -/
def decodeMvccKey (encoded : Bytes) : Except Error MvccKey :=
  let prefixLength := mvccMetadataPrefix.length
  if encoded.length < prefixLength + 1 then
    .error (.new "storage: truncated MVCC key: got %d bytes" [.number encoded.length])
  else if encoded.take prefixLength ≠ mvccMetadataPrefix then
    .error (.new "storage: invalid MVCC key namespace: %x" [.bytes encoded])
  else match encoded.drop prefixLength with
    | [] => .error (.new "storage: truncated MVCC key: got %d bytes" [.number encoded.length])
    | kind :: payload =>
      if kind = MvccKeyKind.nextVersion.byte then
        if payload.length ≠ 0 then
          .error (.new "storage: next-version key has %d trailing bytes" [.number payload.length])
        else .ok nextVersionKey
      else if kind = MvccKeyKind.txnActive.byte then
        match decodeVersion payload with
        | .error e => .error (.wrap "storage: decoding active-transaction key: %w" [] e)
        | .ok v => .ok (activeTransactionKey v)
      else if kind = MvccKeyKind.txnWrite.byte then decodeTxnWrite payload
      else if kind = MvccKeyKind.version.byte then decodeVersioned payload
      else .error (.new "storage: unknown MVCC key kind %d" [.number kind.val])

end SpaceDB.Storage
