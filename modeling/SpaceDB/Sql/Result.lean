import SpaceDB.Lib.Lines
import SpaceDB.Sql.Executor

namespace SpaceDB.Sql
open Lib Storage

/-- The texts that Go's libraries make of a float64 (`FormatFloat(f, 'g', -1, 64)`)
and of an error. -/
structure Texts where
  float : Float64 → Bytes
  error : Error → Bytes

def number (i : Int) : Bytes := ascii (toString i)

namespace Texts
variable (texts : Texts)

def value : Value → Bytes
  | .null => ascii "NULL"
  | .boolean b => ascii (if b then "true" else "false")
  | .integer i => number i
  | .float f => texts.float f
  | .string s => s

def rowsLines (columns : List Bytes) (rows : List Row) : List Bytes :=
  let join := List.intercalate (ascii " | ")
  join columns :: rows.map (fun row => join (row.map texts.value)) ++
    [ascii "(" ++ number rows.length ++ ascii " rows)"]

def formatResult : ResultSet → Bytes
  | .createTable tableName => ascii "CREATE TABLE " ++ tableName
  | .insert count => ascii "INSERT " ++ number count ++ ascii " rows"
  | .update count => ascii "UPDATE " ++ number count ++ ascii " rows"
  | .delete count => ascii "DELETE " ++ number count ++ ascii " rows"
  | .rows columns rows => List.intercalate [newline] (texts.rowsLines columns rows)

end Texts
end SpaceDB.Sql
