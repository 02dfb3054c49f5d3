import SpaceDB.Engine.Sessions

namespace SpaceDB.Engine
open Lib Storage Sql

/-- The table takes the row, and `pk` is its primary key. -/
def RowOf (table : Table) (pk : Value) (row : Row) : Prop :=
  validateRow table row = .ok () ∧ table.primaryKeyValue row = .ok pk

/-- A table with its rows. They stand in the order of their primary keys, and
every row is one that the table takes. -/
structure Relation where
  table : Table
  rows : OrderedMap Bytes Row
  sound : ∀ {key row}, rows.find? key = some row → ∃ pk, RowOf table pk row ∧
    key = encodePrimaryKey pk

namespace Relation

def new (table : Table) : Relation := ⟨table, .empty, nofun⟩

theorem sound_insert {r : Relation} {pk : Value} {row : Row}
    (h : RowOf r.table pk row) {key : Bytes}
    {row' : Row} (hfind : (r.rows.insert (encodePrimaryKey pk) row).find? key = some row') :
    ∃ pk, RowOf r.table pk row' ∧ key = encodePrimaryKey pk := by
  rw [OrderedMap.find?_insert] at hfind
  split_ifs at hfind with hkey
  · cases hfind
    exact ⟨pk, h, hkey⟩
  · exact r.sound hfind

theorem sound_erase {r : Relation} {erased key : Bytes} {row : Row}
    (hfind : (r.rows.erase erased).find? key = some row) :
    ∃ pk, RowOf r.table pk row ∧ key = encodePrimaryKey pk := by
  rw [OrderedMap.find?_erase] at hfind
  split_ifs at hfind
  exact r.sound hfind

def put (r : Relation) (pk : Value) (row : Row) (h : RowOf r.table pk row) : Relation :=
  ⟨r.table, r.rows.insert (encodePrimaryKey pk) row, sound_insert h⟩

def remove (r : Relation) (pk : Value) : Relation :=
  ⟨r.table, r.rows.erase (encodePrimaryKey pk), sound_erase⟩

def accept (table : Table) (row : Row) : Outcome { pk : Value // RowOf table pk row } :=
  match hvalid : validateRow table row, hpk : table.primaryKeyValue row with
  | .ok (), .ok pk => .ok ⟨pk, hvalid, hpk⟩
  | .ok (), .error e => .error e
  | .error e, _ => .error e

end Relation

/-- A relational database, without keys in bytes, JSON and transactions: what the
engine is for. -/
@[ext] structure Relations where
  find : Bytes → Option Relation
  named : ∀ {name r}, find name = some r → r.table.name = name

/-- The error of a call with a table that was not handed out; no statement makes
one. -/
def unknownTable {α : Type} : Outcome α := fault "unknown table" []

def storable (format : String) (args : List Arg) : Except Error Bytes → Outcome Unit
  | .ok _ => .ok ()
  | .error e => .error (.error (.wrap format args e))

namespace Relations
variable (codec : Codec)

theorem named_update {d : Relations} {s r : Relation} {name : Bytes}
    (h : Function.update d.find s.table.name (some s) name = some r) : r.table.name = name := by
  rw [Function.update_apply] at h
  split_ifs at h with hname
  · cases h
    exact hname.symm
  · exact d.named h

def set (d : Relations) (r : Relation) : Relations :=
  ⟨Function.update d.find r.table.name (some r), named_update⟩

def row (d : Relations) (name key : Bytes) : Option Row :=
  (d.find name).bind fun r => r.rows.find? key

def getTable (d : Relations) (name : Bytes) : Outcome (Option Table) :=
  if name = [] then fault "engine: table name cannot be empty" []
  else .ok ((d.find name).map Relation.table)

def createTable (table : Table) (d : Relations) : Outcome Relations := do
  table.validate.wrap "engine: invalid table: %v" []
  if (← d.getTable table.name).isSome then
    fault "engine: table already exists: %s" [.bytes table.name]
  else
    storable "engine: encoding table %q: %w" [.bytes table.name] (codec.encodeTable table)
    return d.set (.new table)

def createRow (name : Bytes) (row : Row) (d : Relations) : Outcome Relations := do
  let _ ← (d.getTable name).wrap "engine: loading table %q: %w" [.bytes name]
  match d.find name with
  | none => fault "engine: table %q does not exist" [.bytes name]
  | some r =>
    let pk ← Relation.accept r.table row
    if (r.rows.find? (encodePrimaryKey pk)).isSome then
      fault "engine: duplicate primary key in table %q" [.bytes name]
    else
      storable "engine: encoding row for table %q: %w" [.bytes name] (codec.encodeRow row)
      return d.set (r.put pk row pk.property)

def updateRow (table : Table) (old : Value) (row : Row) (d : Relations) : Outcome Relations :=
  match d.find table.name with
  | none => unknownTable
  | some r => do
    let pk ← Relation.accept r.table row
    let moved := !old.equal pk
    if moved && (r.rows.find? (encodePrimaryKey pk)).isSome then
      fault "engine: duplicate primary key in table %q" [.bytes table.name]
    else
      storable "engine: encoding updated row for table %q: %w" [.bytes table.name]
        (codec.encodeRow row)
      return d.set
        (if moved then (r.remove old).put pk row pk.property else r.put pk row pk.property)

def deleteRow (table : Table) (pk : Value) (d : Relations) : Outcome Relations :=
  match d.find table.name with
  | none => unknownTable
  | some r => .ok (d.set (r.remove pk))

def scanTable (table : Table) (d : Relations) : Outcome (List Row) :=
  match d.find table.name with
  | none => unknownTable
  | some r => .ok (r.rows.entries.map Prod.snd)

/-- A change that is made as a whole or not at all. -/
def change (d : Relations) : Outcome Relations → Outcome Unit × Relations
  | .ok d' => (.ok (), d')
  | .error e => (.error e, d)

/-- The relations as an `executor.Transaction`. -/
def call : Handler TxnCall TxnRet Relations
  | .createRow name row, d => d.change (d.createRow codec name row)
  | .updateRow table old row, d => d.change (d.updateRow codec table old row)
  | .deleteRow table pk, d => d.change (d.deleteRow table pk)
  | .scanTable table, d => (d.scanTable table, d)
  | .createTable table, d => d.change (d.createTable codec table)
  | .getTable name, d => (d.getTable name, d)

end Relations

/-- A statement on relations: it takes effect as a whole, or not at all. -/
def Relations.execute (setting : Setting) (i : Nat) (sql : Bytes) (d : Relations) :
    Outcome ResultSet × Relations :=
  match Session.plan sql with
  | .error e => (.error e, d)
  | .ok node =>
    match (Sql.execute (setting.walks.order i) node).run (Relations.call setting.codec) d with
    | (.ok result, d') => (.ok result, d')
    | (.error (.error e), _) => (.error (.error (.wrap "engine: executing statement: %w" [] e)), d)
    | (.error (.panic message), _) => (.error (.panic message), d)

def Relations.executeAll (setting : Setting) (i : Nat) (sqls : List Bytes) (d : Relations) :
    List (Outcome ResultSet) × Relations :=
  inTurn (Relations.execute setting) i sqls d

end SpaceDB.Engine
