import SpaceDB.Lib.Program
import SpaceDB.Sql.Aggregate

namespace SpaceDB.Sql
open Lib Storage

/-- The methods of the Transaction interface that executors use. -/
inductive TxnCall where
  | createRow (tableName : Bytes) (row : Row)
  | updateRow (table : Table) (oldPrimaryKey : Value) (row : Row)
  | deleteRow (table : Table) (primaryKey : Value)
  | scanTable (table : Table)
  | createTable (table : Table)
  | getTable (tableName : Bytes)
  deriving DecidableEq

abbrev TxnCall.Val : TxnCall → Type
  | .scanTable _ => List Row
  | .getTable _ => Option Table
  | _ => Unit

abbrev TxnRet (c : TxnCall) := Outcome c.Val

abbrev ExecM := Prog TxnCall TxnRet Fault

def ExecM.wrap {α : Type} (format : String) (args : List Arg) (p : ExecM α) : ExecM α :=
  p.mapError (Fault.wrap format args)

def txn (c : TxnCall) : ExecM c.Val := do .ofExcept (← .perform c)

inductive ResultSet where
  | createTable (tableName : Bytes)
  | insert (count : Nat)
  | update (count : Nat)
  | delete (count : Nat)
  | rows (columns : List Bytes) (rows : List Row)
  deriving DecidableEq

def ResultSet.toRows : ResultSet → Outcome (List Bytes × List Row)
  | .rows columns rs => .ok (columns, rs)
  | _ => .error (.panic "interface conversion: not RowsResult")

def evaluateComparison (kind : OperationKind) (left right : Value) : Outcome Value :=
  if left = .null ∨ right = .null then .ok .null
  else do
    let comparison ← (left.compare right).wrap "executor: comparing values: %w" []
    return .boolean (match kind with
      | .operationEqual => decide (comparison = 0)
      | .operationGreaterThan => decide (comparison > 0)
      | .operationLessThan => decide (comparison < 0))

/-- The right operand of an operation is evaluated with the two inputs swapped. -/
def evaluate : Payload → ExpressionKind → List Bytes → Row → List Bytes → Row → Outcome Value
  | .operation kind leftKind left rightKind right, .operationExpression,
      leftColumns, leftRow, rightColumns, rightRow => do
    let leftValue ← (evaluate left leftKind leftColumns leftRow rightColumns rightRow).wrap
      "executor: evaluating left operand: %w" []
    let rightValue ← (evaluate right rightKind rightColumns rightRow leftColumns leftRow).wrap
      "executor: evaluating right operand: %w" []
    evaluateComparison kind leftValue rightValue
  | _, .operationExpression, _, _, _, _ =>
    .error (.panic "interface conversion: not Operation")
  | _, .null, _, _, _, _ => .ok .null
  | value, .booleanLiteral, _, _, _, _ => return .boolean (← value.toBool)
  | value, .integerLiteral, _, _, _, _ => return .integer (← value.toInt64)
  | value, .floatLiteral, _, _, _, _ => return .float (← value.toFloat64)
  | value, .stringLiteral, _, _, _, _ => return .string (← value.toString)
  | value, .columnReference, leftColumns, leftRow, _, _ => do
    let columnName ← value.toString
    match columnIndexOf leftColumns columnName with
    | none => fault "executor: column %q does not exist" [.bytes columnName]
    | some i => index leftRow i
  | _, .functionExpression, _, _, _, _ =>
    fault "executor: expression kind %d cannot be evaluated for a row"
      [.number ExpressionKind.functionExpression.number]

def evaluateExpression (e : Expression) (leftColumns : List Bytes) (leftRow : Row)
    (rightColumns : List Bytes) (rightRow : Row) : Outcome Value :=
  evaluate e.value e.kind leftColumns leftRow rightColumns rightRow

def filterRows (predicate : Expression) (columns : List Bytes) : Nat → List Row →
    Outcome (List Row)
  | _, [] => .ok []
  | i, row :: rows => do
    let value ← (evaluateExpression predicate columns row columns row).wrap
      "executor: evaluating filter for row %d: %w" [.number (i + 1)]
    let kept ← filterRows predicate columns (i + 1) rows
    return if value = .boolean true then row :: kept else kept

def resolveOrder (columns : List Bytes) (order : OrderBy) : Outcome (OrderBy × Nat) :=
  match columnIndexOf columns order.column with
  | none => fault "executor: ORDER BY column %q does not exist" [.bytes order.column]
  | some i => .ok (order, i)

def compareRows : List (OrderBy × Nat) → Row → Row → Outcome Int
  | [], _, _ => .ok 0
  | (order, i) :: orders, a, b => do
    let comparison ← ((← index a i).compare (← index b i)).wrap
      "executor: comparing ORDER BY column %q: %w" [.bytes order.column]
    if comparison = 0 then compareRows orders a b
    else return if order.direction = .orderDescending then -comparison else comparison

/-- A row moves to the left past the rows that it is less than; the rows are
given from right to left. -/
def insertRow (orders : List (OrderBy × Nat)) (row : Row) : List Row → Outcome (List Row)
  | [] => .ok [row]
  | last :: rows => do
    if (← compareRows orders row last) < 0 then return last :: (← insertRow orders row rows)
    else return row :: last :: rows

/-- `slices.SortStableFunc` as insertion sort. The error of the first
comparison that fails is the error of the whole sort. -/
def sortRows (orders : List (OrderBy × Nat)) (rows : List Row) : Outcome (List Row) := do
  return (← rows.foldlM (fun sorted row => insertRow orders row sorted) []).reverse

def orderRows (orderBy : List OrderBy) (columns : List Bytes) (rows : List Row) :
    Outcome (List Row) := do
  sortRows (← orderBy.mapM (resolveOrder columns)) rows

/-- The rows from `offset` on, or none when there are fewer. -/
def offsetRows (offset : Int64) (rows : List Row) : Outcome (List Row) :=
  let start := min offset.val rows.length
  if start < 0 then .error (.panic "slice bounds out of range") else .ok (rows.drop start.toNat)

def limitRows (limit : Int64) (rows : List Row) : Outcome (List Row) :=
  let stop := min limit.val rows.length
  if stop < 0 then .error (.panic "slice bounds out of range") else .ok (rows.take stop.toNat)

structure ProjectedItem where
  columnIndex : Option Nat
  constant : Value
  outputName : Bytes

def resolveItem (columns : List Bytes) (item : SelectItem) : Outcome ProjectedItem :=
  match item.expression.kind with
  | .columnReference => do
    let columnName ← item.expression.value.toString
    match columnIndexOf columns columnName with
    | none => fault "executor: projection column %q does not exist" [.bytes columnName]
    | some i => return ⟨some i, .null, item.aliasName.getD columnName⟩
  | _ => do
    let value ← (valueFromExpression item.expression).wrap
      "executor: converting projection expression: %w" []
    return ⟨none, value, item.aliasName.getD (ascii "?column?")⟩

def ProjectedItem.value (item : ProjectedItem) (row : Row) : Outcome Value :=
  match item.columnIndex with
  | none => .ok item.constant
  | some i => index row i

def projectRows (items : List SelectItem) (columns : List Bytes) (rows : List Row) :
    Outcome (List Bytes × List Row) := do
  let items ← items.mapM (resolveItem columns)
  let rows ← rows.mapM (fun row => items.mapM (·.value row))
  return (items.map ProjectedItem.outputName, rows)

/-- A join without predicate keeps every pair. -/
def isMatch (predicate : Option Expression) (leftColumns : List Bytes) (a : Row)
    (rightColumns : List Bytes) (b : Row) : Outcome Bool :=
  match predicate with
  | none => .ok true
  | some e => do
    let value ← (evaluateExpression e leftColumns a rightColumns b).wrap
      "executor: evaluating JOIN predicate: %w" []
    return decide (value = .boolean true)

def matchRows (predicate : Option Expression) (leftColumns : List Bytes) (a : Row)
    (rightColumns : List Bytes) : List Row → Outcome (List Row)
  | [] => .ok []
  | b :: rows => do
    let isMatch ← isMatch predicate leftColumns a rightColumns b
    let matched ← matchRows predicate leftColumns a rightColumns rows
    return if isMatch then (a ++ b) :: matched else matched

/-- An outer join keeps a left row without match and fills it up with NULLs. -/
def joinLoop (predicate : Option Expression) (outer : Bool) (leftColumns rightColumns : List Bytes)
    (rightRows : List Row) : List Row → Outcome (List Row)
  | [] => .ok []
  | a :: rows => do
    let matched ← matchRows predicate leftColumns a rightColumns rightRows
    let padded := if outer && matched.isEmpty then
        [a ++ List.replicate rightColumns.length .null]
      else matched
    return padded ++ (← joinLoop predicate outer leftColumns rightColumns rightRows rows)

/-- The bytes of a slice header, which is what an element of a `[]types.Row` is. -/
def rowSize : Nat := 24

/-- `runtime.maxAlloc` where addresses have 48 bits. -/
def maxAlloc : Nat := 2 ^ 48

/-- `make` takes a capacity as a uintptr. A product of ints that has wrapped around
into a negative one is larger than any memory then. -/
def CapacityFits (capacity : Nat) : Prop := capacity % 2 ^ 64 * rowSize ≤ maxAlloc

instance (capacity : Nat) : Decidable (CapacityFits capacity) :=
  inferInstanceAs (Decidable (_ ≤ _))

def capOutOfRange : String := "makeslice: cap out of range"

def makeRows (capacity : Nat) : Outcome Unit :=
  if CapacityFits capacity then .ok () else .error (.panic capOutOfRange)

def joinRows (predicate : Option Expression) (outer : Bool) (leftColumns rightColumns : List Bytes)
    (rightRows leftRows : List Row) : Outcome (List Row) := do
  makeRows (leftRows.length * rightRows.length)
  joinLoop predicate outer leftColumns rightColumns rightRows leftRows

def insertValues (rowIdx : Nat) : Nat → List Expression → Outcome Row
  | _, [] => .ok []
  | i, e :: es => do
    let value ← (valueFromExpression e).wrap "executor: converting row %d value %d: %w"
      [.number (rowIdx + 1), .number (i + 1)]
    return value :: (← insertValues rowIdx (i + 1) es)

def defaultOf (column : Column) : Outcome Value :=
  match column.default with
  | none => fault "no default value for column %q" [.bytes column.name]
  | some value => .ok value

/-- The map from names to positions: the last column of a name has it. -/
def positionOf (columns : List Column) (name : Bytes) : Option Nat :=
  (columns.zipIdx.reverse.find? (fun c => decide (c.1.name = name))).map Prod.snd

/-- The given values go to their columns; `filled` says which have one. -/
def placeValues (columns : List Column) (input : Row) :
    Nat → Row → List Bool → List Bytes → Outcome (Row × List Bool)
  | _, result, filled, [] => .ok (result, filled)
  | i, result, filled, columnName :: columnNames => do
    match positionOf columns columnName with
    | none => fault "unknown column %q" [.bytes columnName]
    | some columnIdx =>
      if ← index filled columnIdx then
        fault "column %q specified more than once" [.bytes columnName]
      else
        let result ← assign result columnIdx (← index input i)
        let filled ← assign filled columnIdx true
        placeValues columns input (i + 1) result filled columnNames

/-- The columns from `i` on that have no value get their default. -/
def placeDefaults (filled : List Bool) : Nat → Row → List Column → Outcome Row
  | _, result, [] => .ok result
  | i, result, column :: columns => do
    if ← index filled i then placeDefaults filled (i + 1) result columns
    else
      match column.default with
      | none => fault "no value given for column %q" [.bytes column.name]
      | some value => placeDefaults filled (i + 1) (← assign result i value) columns

/-- Without column names the values are those of the first columns. -/
def makeInsertRow (table : Table) (columnNames : List Bytes) (input : Row) : Outcome Row :=
  if columnNames = [] then
    if input.length > table.columns.length then
      fault "too many values: got %d, columns %d"
        [.number input.length, .number table.columns.length]
    else do return input ++ (← (table.columns.drop input.length).mapM defaultOf)
  else if columnNames.length ≠ input.length then
    fault "columns and values count mismatch: columns %d, values %d"
      [.number columnNames.length, .number input.length]
  else do
    let n := table.columns.length
    let (result, filled) ← placeValues table.columns input 0 (.replicate n .null)
      (.replicate n false) columnNames
    placeDefaults filled 0 result table.columns

def loadTable (tableName : Bytes) : ExecM Table := do
  match ← (txn (.getTable tableName)).wrap "executor: loading table %q: %w" [.bytes tableName] with
  | none => .ofExcept (fault "executor: table %q does not exist" [.bytes tableName])
  | some table => return table

def insertRows (tableName : Bytes) (table : Table) (columns : List Bytes) :
    Nat → List (List Expression) → ExecM Nat
  | inserted, [] => return inserted
  | rowIdx, es :: values => do
    let row ← .ofExcept (insertValues rowIdx 0 es)
    let fullRow ← .ofExcept ((makeInsertRow table columns row).wrap
      "executor: preparing row %d: %w" [.number (rowIdx + 1)])
    (txn (.createRow tableName fullRow)).wrap "executor: inserting row %d: %w"
      [.number (rowIdx + 1)]
    insertRows tableName table columns (rowIdx + 1) values

def resolveAssignment (table : Table) (assignment : Bytes × Expression) :
    Outcome (Nat × Value) := do
  let columnIndex ← (table.columnIndex assignment.1).wrap
    "executor: resolving update column %q: %w" [.bytes assignment.1]
  let value ← (valueFromExpression assignment.2).wrap
    "executor: converting update value for column %q: %w" [.bytes assignment.1]
  return (columnIndex, value)

/-- The loop of `UpdateExecutor` from row `rowIndex` on. -/
def updateRows (table : Table) (assignments : List (Nat × Value)) : Nat → List Row → ExecM Nat
  | updated, [] => return updated
  | rowIndex, row :: rows => do
    let oldPrimaryKey ← .ofExcept ((table.primaryKeyValue row).wrap
      "executor: reading primary key from row %d: %w" [.number (rowIndex + 1)])
    let updatedRow ← .ofExcept (assignments.foldlM (fun row a => assign row a.1 a.2) row)
    (txn (.updateRow table oldPrimaryKey updatedRow)).wrap "executor: updating row %d: %w"
      [.number (rowIndex + 1)]
    updateRows table assignments (rowIndex + 1) rows

def deleteRows (table : Table) : Nat → List Row → ExecM Nat
  | deleted, [] => return deleted
  | i, row :: rows => do
    let primaryKey ← .ofExcept ((table.primaryKeyValue row).wrap
      "executor: reading primary key from row %d: %w" [.number (i + 1)])
    (txn (.deleteRow table primaryKey)).wrap "executor: deleting raw %d: %w" [.number (i + 1)]
    deleteRows table (i + 1) rows

/-- The order in which `range` walks over the assignments of an UPDATE. -/
abbrev Walk := List (Bytes × Expression) → List (Bytes × Expression)

/-- `Execute` of the executor that `Build` makes of a node; it has the fields
of the node. -/
def execute (walk : Walk) : Node → ExecM ResultSet
  | .createTable schema => do
    txn (.createTable schema)
    return .createTable schema.name
  | .insert tableName columns values => do
    let table ← loadTable tableName
    return .insert (← insertRows tableName table columns 0 values)
  | .scan tableName => do
    let table ← loadTable tableName
    let rows ← (txn (.scanTable table)).wrap "executor: scanning table %q: %w" [.bytes tableName]
    return .rows (table.columns.map Column.name) rows
  | .filter source predicate => do
    let result ← (execute walk source).wrap "executor: executing filter source: %w" []
    let (columns, rows) ← .ofExcept result.toRows
    return .rows columns (← .ofExcept (filterRows predicate columns 0 rows))
  | .order source orderBy => do
    let result ← (execute walk source).wrap "executor: executing ORDER BY source: %w" []
    let (columns, rows) ← .ofExcept result.toRows
    return .rows columns (← .ofExcept (orderRows orderBy columns rows))
  | .offset source offset => do
    let result ← (execute walk source).wrap "executor: executing OFFSET source: %w" []
    let (columns, rows) ← .ofExcept result.toRows
    return .rows columns (← .ofExcept (offsetRows offset rows))
  | .limit source limit => do
    let result ← (execute walk source).wrap "executor: executing LIMIT source: %w" []
    let (columns, rows) ← .ofExcept result.toRows
    return .rows columns (← .ofExcept (limitRows limit rows))
  | .projection source items => do
    let result ← (execute walk source).wrap "executor: executing projection source: %w" []
    let (columns, rows) ← .ofExcept result.toRows
    let (columns, rows) ← .ofExcept (projectRows items columns rows)
    return .rows columns rows
  | .aggregate source items groupBy => do
    let result ← (execute walk source).wrap "executor: executing aggregate source: %w" []
    let (columns, rows) ← .ofExcept result.toRows
    let (columns, rows) ← .ofExcept (aggregateRows items groupBy columns rows)
    return .rows columns rows
  | .nestedLoopJoin left right predicate outer => do
    let leftResult ← (execute walk left).wrap "executor: executing left join input: %w" []
    let (leftColumns, leftRows) ← .ofExcept leftResult.toRows
    let rightResult ← (execute walk right).wrap "executor: executing right join input: %w" []
    let (rightColumns, rightRows) ← .ofExcept rightResult.toRows
    let rows ← .ofExcept (joinRows predicate outer leftColumns rightColumns rightRows leftRows)
    return .rows (leftColumns ++ rightColumns) rows
  | .update tableName source assignments => do
    let table ← loadTable tableName
    let assignments ← .ofExcept ((walk assignments.entries).mapM (resolveAssignment table))
    let result ← execute walk source
    let (_, rows) ← .ofExcept result.toRows
    return .update (← updateRows table assignments 0 rows)
  | .delete tableName source => do
    let table ← loadTable tableName
    let result ← execute walk source
    let (_, rows) ← .ofExcept result.toRows
    return .delete (← deleteRows table 0 rows)

end SpaceDB.Sql
