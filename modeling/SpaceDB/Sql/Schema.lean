import SpaceDB.Sql.Values

namespace SpaceDB.Sql
open Lib Storage

structure Column where
  name : Bytes
  dataType : DataType
  nullable : Bool
  /-- Missing when the column has no default; a default may be NULL. -/
  default : Option Value
  primaryKey : Bool
  deriving DecidableEq

structure Table where
  name : Bytes
  columns : List Column
  deriving DecidableEq

namespace Table

/-- The loop of `Validate` over the columns, with the primary keys so far. -/
def validateColumns (table : Bytes) : Nat → List Column → Outcome Nat
  | primaryKeys, [] => .ok primaryKeys
  | primaryKeys, column :: columns =>
    if column.primaryKey && column.nullable then
      fault "schema: primary key %q cannot be nullable in table %q"
        [.bytes column.name, .bytes table]
    else
      let primaryKeys := if column.primaryKey then primaryKeys + 1 else primaryKeys
      match column.default.bind Value.dataType with
      | none => validateColumns table primaryKeys columns
      | some defaultType =>
        if defaultType ≠ column.dataType then
          fault "schema: default value for column %q has type %d, want %d"
            [.bytes column.name, .number defaultType.number, .number column.dataType.number]
        else validateColumns table primaryKeys columns

def validate (t : Table) : Outcome Unit := do
  if t.name = [] then fault "schema: table name cannot be empty" []
  else if t.columns.length = 0 then fault "schema: table %q has no columns" [.bytes t.name]
  else
    match ← validateColumns t.name 0 t.columns with
    | 0 => fault "schema: table %q has no primary key" [.bytes t.name]
    | 1 => .ok ()
    | _ => fault "schema: table %q has multiple primary keys" [.bytes t.name]

/-- The loop of `PrimaryKeyValue` from column `i` on. -/
def primaryKeyFrom (t : Table) (row : Row) (i : Nat) : List Column → Outcome Value
  | [] => fault "schema: table %q has no primary key" [.bytes t.name]
  | column :: columns =>
    if column.primaryKey then index row i else primaryKeyFrom t row (i + 1) columns

def primaryKeyValue (t : Table) (row : Row) : Outcome Value :=
  if row.length ≠ t.columns.length then
    fault "schema: row length mismatch: got %d, columns %d"
      [.number row.length, .number t.columns.length]
  else primaryKeyFrom t row 0 t.columns

def columnIndex (t : Table) (name : Bytes) : Outcome Nat :=
  match t.columns.findIdx? (fun column => decide (column.name = name)) with
  | some i => .ok i
  | none => fault "schema: column %q does not exist in table %q" [.bytes name, .bytes t.name]

end Table
end SpaceDB.Sql
