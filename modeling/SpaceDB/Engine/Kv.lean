import SpaceDB.Lib.Transformer
import SpaceDB.Sql.Executor
import SpaceDB.Sql.Parser

namespace SpaceDB.Engine
open Lib Storage Sql

/-- What the engine uses of the JSON library. -/
structure Codec where
  encodeTable : Table → Except Error Bytes
  decodeTable : Bytes → Except Error Table
  encodeRow : Row → Except Error Bytes
  decodeRow : Bytes → Except Error Row

inductive MvccCall where
  | begin
  | get (key : Bytes)
  | scanPrefix (start : Bytes)
  | set (key value : Bytes)
  | delete (key : Bytes)
  | commit
  | rollback
  deriving DecidableEq

abbrev MvccCall.Val : MvccCall → Type
  | .get _ => Slice
  | .scanPrefix _ => List Entry
  | _ => Unit

abbrev MvccRet (c : MvccCall) := Except Error c.Val

abbrev KvM := Prog MvccCall MvccRet Fault

def KvM.wrap {α : Type} (format : String) (args : List Arg) (p : KvM α) : KvM α :=
  p.mapError (Fault.wrap format args)

def mvcc (c : MvccCall) : KvM c.Val := do .check Fault.error (← .perform c)

def coded {α : Type} (format : String) (args : List Arg) (r : Except Error α) : KvM α :=
  .check (fun e => .error (.wrap format args e)) r

def keyNamespaceTable : Byte := 1

def keyNamespaceRow : Byte := 2

def keySeparator : Byte := 0

def tableKey (tableName : Bytes) : Outcome Bytes :=
  if tableName = [] then fault "engine: table name cannot be empty" []
  else .ok (keyNamespaceTable :: tableName)

def rowPrefixKey (tableName : Bytes) : Outcome Bytes :=
  if tableName = [] then fault "engine: table name cannot be empty" []
  else .ok (keyNamespaceRow :: tableName ++ [keySeparator])

/-- The sign bit is flipped in a number, and all bits are in a negative float,
so that the bytes are in the order of the numbers. -/
def encodePrimaryKey : Value → Bytes
  | .null => [0]
  | .boolean b => [1, if b then 1 else 0]
  | .integer i => 2 :: putUint 8 ((i.val % 2 ^ 64).toNat ^^^ 2 ^ 63)
  | .float f =>
    let bits := f.bits.val
    3 :: putUint 8 (if bits &&& 2 ^ 63 ≠ 0 then 2 ^ 64 - 1 - bits else bits ^^^ 2 ^ 63)
  | .string s => 4 :: s

def rowKey (tableName : Bytes) (primary : Value) : Outcome Bytes := do
  return (← rowPrefixKey tableName) ++ encodePrimaryKey primary

def validateValues (row : Row) : Nat → List Column → Outcome Unit
  | _, [] => .ok ()
  | i, column :: columns => do
    let value ← index row i
    match value.dataType with
    | none =>
      if column.nullable then validateValues row (i + 1) columns
      else fault "engine: column %q cannot be NULL" [.bytes column.name]
    | some actualType =>
      if actualType ≠ column.dataType then
        fault "engine: column %q type mismatch: want %d, got %d"
          [.bytes column.name, .number column.dataType.number, .number actualType.number]
      else validateValues row (i + 1) columns

def validateRow (table : Table) (row : Row) : Outcome Unit :=
  if row.length ≠ table.columns.length then
    fault "engine: row length mismatch: got %d, columns %d"
      [.number row.length, .number table.columns.length]
  else validateValues row 0 table.columns

namespace KVTransaction
variable (codec : Codec)

def getTable (tableName : Bytes) : KvM (Option Table) := do
  let key ← .ofExcept (tableKey tableName)
  match ← mvcc (.get key) with
  | none => return none
  | some encoded =>
    some <$> coded "engine: decoding table %q: %w" [.bytes tableName] (codec.decodeTable encoded)

def createTable (table : Table) : KvM Unit := do
  .ofExcept (table.validate.wrap "engine: invalid table: %v" [])
  if (← getTable codec table.name).isSome then
    .ofExcept (fault "engine: table already exists: %s" [.bytes table.name])
  else
    let key ← .ofExcept (tableKey table.name)
    let encoded ← coded "engine: encoding table %q: %w" [.bytes table.name]
      (codec.encodeTable table)
    mvcc (.set key encoded)

def createRow (tableName : Bytes) (row : Row) : KvM Unit := do
  match ← (getTable codec tableName).wrap "engine: loading table %q: %w" [.bytes tableName] with
  | none => .ofExcept (fault "engine: table %q does not exist" [.bytes tableName])
  | some table =>
    .ofExcept (validateRow table row)
    let primaryKey ← .ofExcept (table.primaryKeyValue row)
    let key ← .ofExcept (rowKey tableName primaryKey)
    let existing ← (mvcc (.get key)).wrap "engine: checking primary key for table %q: %w"
      [.bytes tableName]
    if existing.isSome then
      .ofExcept (fault "engine: duplicate primary key in table %q" [.bytes tableName])
    else
      let encoded ← coded "engine: encoding row for table %q: %w" [.bytes tableName]
        (codec.encodeRow row)
      mvcc (.set key encoded)

/-- A changed primary key moves the row; whether it has changed is decided by
Go's `!=`. -/
def moveRow (table : Table) (oldPrimaryKey newPrimaryKey : Value) (newKey : Bytes) : KvM Unit :=
  if !oldPrimaryKey.equal newPrimaryKey then do
    let oldKey ← .ofExcept (rowKey table.name oldPrimaryKey)
    let existing ← (mvcc (.get newKey)).wrap "engine: checking updated primary key: %w" []
    if existing.isSome then
      .ofExcept (fault "engine: duplicate primary key in table %q" [.bytes table.name])
    else (mvcc (.delete oldKey)).wrap "engine: deleting old row key: %w" []
  else return ()

def updateRow (table : Table) (oldPrimaryKey : Value) (row : Row) : KvM Unit := do
  .ofExcept (validateRow table row)
  let newPrimaryKey ← .ofExcept (table.primaryKeyValue row)
  let newKey ← .ofExcept (rowKey table.name newPrimaryKey)
  moveRow table oldPrimaryKey newPrimaryKey newKey
  let encoded ← coded "engine: encoding updated row for table %q: %w" [.bytes table.name]
    (codec.encodeRow row)
  mvcc (.set newKey encoded)

def deleteRow (table : Table) (primaryKey : Value) : KvM Unit := do
  let key ← .ofExcept (rowKey table.name primaryKey)
  (mvcc (.delete key)).wrap "engine: deleting row from table %q: %w" [.bytes table.name]

def decodeEntry (table : Table) (i : Nat) (e : Entry) : Outcome Row :=
  (codec.decodeRow (e.value.getD [])).mapError (fun err =>
    .error (.wrap "engine: decoding row %d from table %q: %w"
      [.number (i + 1), .bytes table.name] err))

def decodeRows (table : Table) : Nat → List Entry → Outcome (List Row)
  | _, [] => .ok []
  | i, e :: es => do
    let row ← decodeEntry codec table i e
    if row.length ≠ table.columns.length then
      fault "engine: stored row %d has %d values, want %d"
        [.number (i + 1), .number row.length, .number table.columns.length]
    else return row :: (← decodeRows table (i + 1) es)

def scanTable (table : Table) : KvM (List Row) := do
  let start ← .ofExcept (rowPrefixKey table.name)
  let entries ← (mvcc (.scanPrefix start)).wrap "engine: scanning rows for table %q: %w"
    [.bytes table.name]
  .ofExcept (decodeRows codec table 0 entries)

/-- `KVTransaction` as an `executor.Transaction`. -/
def call : (c : TxnCall) → KvM c.Val
  | .createRow tableName row => createRow codec tableName row
  | .updateRow table oldPrimaryKey row => updateRow codec table oldPrimaryKey row
  | .deleteRow table primaryKey => deleteRow table primaryKey
  | .scanTable table => scanTable codec table
  | .createTable table => createTable codec table
  | .getTable tableName => getTable codec tableName

end KVTransaction

end SpaceDB.Engine
