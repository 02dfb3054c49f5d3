import SpaceDB.Sql.Planner

namespace SpaceDB.Sql
open Lib Storage

def columnIndexOf (columns : List Bytes) (name : Bytes) : Option Nat := columns.idxOf? name

def aggregateColumn (columns : List Bytes) (columnName : Bytes) : Outcome Nat :=
  match columnIndexOf columns columnName with
  | none => fault "column %q does not exist" [.bytes columnName]
  | some i => .ok i

def countCalculator (columnName : Bytes) (columns : List Bytes) (rows : List Row) :
    Outcome Value := do
  let columnIndex ← aggregateColumn columns columnName
  let values ← rows.mapM (index · columnIndex)
  return .integer (.wrap (values.countP (fun v => decide (v ≠ .null))))

def extremeLoop (columnName : Bytes) (columnIndex : Nat) (minimum : Bool) :
    Nat → Option Value → List Row → Outcome (Option Value)
  | _, extreme, [] => .ok extreme
  | i, extreme, row :: rows => do
    let current ← index row columnIndex
    if current = .null then extremeLoop columnName columnIndex minimum (i + 1) extreme rows
    else
      match extreme with
      | none => extremeLoop columnName columnIndex minimum (i + 1) (some current) rows
      | some value =>
        let comparison ← (current.compare value).wrap "comparing row %d column %q: %w"
          [.number (i + 1), .bytes columnName]
        let replace := minimum && decide (comparison < 0) || !minimum && decide (comparison > 0)
        extremeLoop columnName columnIndex minimum (i + 1)
          (some (if replace then current else value)) rows

def calculateExtreme (minimum : Bool) (columnName : Bytes) (columns : List Bytes)
    (rows : List Row) : Outcome Value := do
  let columnIndex ← aggregateColumn columns columnName
  return (← extremeLoop columnName columnIndex minimum 0 none rows).getD .null

/-- The loop of `sumCalculator` from row `i` on; the sum is missing as long as
every value has been NULL. -/
def sumLoop (columnName : Bytes) (columnIndex : Nat) :
    Nat → Option Float64 → List Row → Outcome (Option Float64)
  | _, sum, [] => .ok sum
  | i, sum, row :: rows => do
    let soFar := sum.getD (.ofMagnitude false 0)
    match ← index row columnIndex with
    | .null => sumLoop columnName columnIndex (i + 1) sum rows
    | .integer n => sumLoop columnName columnIndex (i + 1) (some (soFar.add (.ofInt n.val))) rows
    | .float f => sumLoop columnName columnIndex (i + 1) (some (soFar.add f)) rows
    | value =>
      fault "SUM requires a numeric column, but column %q contains value kind %d at row %d"
        [.bytes columnName, .number value.kind, .number (i + 1)]

def sumCalculator (columnName : Bytes) (columns : List Bytes) (rows : List Row) :
    Outcome Value := do
  let columnIndex ← aggregateColumn columns columnName
  return (← sumLoop columnName columnIndex 0 none rows).elim .null .float

def avgCalculator (columnName : Bytes) (columns : List Bytes) (rows : List Row) :
    Outcome Value := do
  let sumValue ← (sumCalculator columnName columns rows).wrap "calculating AVG sum: %w" []
  let countValue ← (countCalculator columnName columns rows).wrap "calculating AVG count: %w" []
  match sumValue, countValue with
  | .float sum, .integer count => return .float (sum.div (.ofInt count.val))
  | _, _ => return .null

/-- The function of that name, in any case of its letters. -/
def buildAggregateCalculator (name : Bytes) :
    Outcome (Bytes → List Bytes → List Row → Outcome Value) :=
  let upper := name.map toUpper
  if upper = ascii "COUNT" then .ok countCalculator
  else if upper = ascii "MIN" then .ok (calculateExtreme true)
  else if upper = ascii "MAX" then .ok (calculateExtreme false)
  else if upper = ascii "SUM" then .ok sumCalculator
  else if upper = ascii "AVG" then .ok avgCalculator
  else fault "aggregate function %q is not implemented" [.bytes name]

def aggregateOutputColumn (item : SelectItem) : Outcome Bytes := do
  let outputName ← match item.expression.kind with
    | .functionExpression => FunctionCall.name <$> item.expression.value.toFunctionCall
    | _ => item.expression.value.toString
  return item.aliasName.getD outputName

def aggregateOutputColumns (items : List SelectItem) : Outcome (List Bytes) :=
  items.mapM aggregateOutputColumn

def resolveGroupBy (e : Expression) (columns : List Bytes) : Outcome Nat := do
  let columnName ← e.value.toString
  match columnIndexOf columns columnName with
  | none => fault "executor: GROUP BY column %q does not exist" [.bytes columnName]
  | some i => .ok i

/-- One value of a result row. Without a grouping there is no group value. -/
def calculateItem (groupValue : Option Value) (columns : List Bytes) (rows : List Row)
    (item : SelectItem) : Outcome Value :=
  match item.expression.kind with
  | .functionExpression => do
    let call ← item.expression.value.toFunctionCall
    let calculator ← (buildAggregateCalculator call.name).wrap
      "building aggregate function %q: %w" [.bytes call.name]
    (calculator call.argument columns rows).wrap "calculating %s(%s): %w"
      [.bytes call.name, .bytes call.argument]
  | _ =>
    match groupValue with
    | some value => .ok value
    | none => .error (.panic "invalid memory address or nil pointer dereference")

def calculateRow (items : List SelectItem) (groupValue : Option Value) (columns : List Bytes)
    (rows : List Row) : Outcome Row :=
  items.mapM (calculateItem groupValue columns rows)

structure RowGroup where
  key : Value
  rows : List Row

/-- A row goes to the group of its key, which is found by Go's `==`. -/
def addToGroup (key : Value) (row : Row) : List RowGroup → List RowGroup
  | [] => [⟨key, [row]⟩]
  | group :: groups =>
    if group.key.equal key then { group with rows := group.rows ++ [row] } :: groups
    else group :: addToGroup key row groups

/-- The rows by the value of one column, in the order in which values appear. -/
def groupRows (i : Nat) : List RowGroup → List Row → Outcome (List RowGroup)
  | groups, [] => .ok groups
  | groups, row :: rows => do groupRows i (addToGroup (← index row i) row groups) rows

def aggregateRows (items : List SelectItem) (groupBy : Option Expression) (columns : List Bytes)
    (rows : List Row) : Outcome (List Bytes × List Row) := do
  let outputColumns ← aggregateOutputColumns items
  match groupBy with
  | none => return (outputColumns, [← calculateRow items none columns rows])
  | some e =>
    let groups ← groupRows (← resolveGroupBy e columns) [] rows
    let outputRows ← groups.mapM fun group =>
      (calculateRow items (some group.key) columns group.rows).wrap
        "executor: calculating GROUP BY value %#v: %w" group.key.args
    return (outputColumns, outputRows)

end SpaceDB.Sql
