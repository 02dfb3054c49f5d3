import SpaceDB.Sql.Ast
import SpaceDB.Sql.Schema

namespace SpaceDB.Sql
open Lib Storage

inductive Node where
  | createTable (schema : Table)
  | insert (tableName : Bytes) (columns : List Bytes) (values : List (List Expression))
  | scan (tableName : Bytes)
  | filter (source : Node) (predicate : Expression)
  | order (source : Node) (orderBy : List OrderBy)
  | limit (source : Node) (limit : Int64)
  | offset (source : Node) (offset : Int64)
  | projection (source : Node) (items : List SelectItem)
  | aggregate (source : Node) (items : List SelectItem) (groupBy : Option Expression)
  | nestedLoopJoin (left right : Node) (predicate : Option Expression) (outer : Bool)
  | update (tableName : Bytes) (source : Node) (assignments : OrderedMap Bytes Expression)
  | delete (tableName : Bytes) (source : Node)
  deriving DecidableEq

def valueFromExpression (e : Expression) : Outcome Value :=
  match e.kind with
  | .null => .ok .null
  | .booleanLiteral => return .boolean (← e.value.toBool)
  | .integerLiteral => return .integer (← e.value.toInt64)
  | .floatLiteral => return .float (← e.value.toFloat64)
  | .stringLiteral => return .string (← e.value.toString)
  | kind => fault "planner: unsupported expression kind %d" [.number kind.number]

/-- A column that allows NULL has it as its default, unless it says otherwise. -/
def defaultFromDef (c : ColumnDef) (nullable : Bool) : Outcome (Option Value) :=
  match c.defaultValue with
  | some e =>
    some <$> (valueFromExpression e).wrap "planner: converting default for column %q: %w"
      [.bytes c.name]
  | none => .ok (if nullable then some .null else none)

/-- A column allows NULL if it is no primary key, unless it says otherwise. -/
def columnFromDef (c : ColumnDef) : Outcome Column := do
  let nullable := c.nullable.getD !c.primaryKey
  let default ← defaultFromDef c nullable
  return ⟨c.name, c.dataType, nullable, default, c.primaryKey⟩

def tableFromCreateStatement (s : CreateTableStatement) : Outcome Table := do
  return ⟨s.name, ← s.columns.mapM columnFromDef⟩

def validateJoinItem (type : JoinType) (predicate : Option Expression) : Outcome Unit :=
  match type with
  | .joinCross =>
    if predicate.isSome then fault "planner: CROSS JOIN cannot have a predicate" [] else .ok ()
  | .joinInner | .joinLeft | .joinRight =>
    if predicate.isNone then
      fault "planner: join type %d requires a predicate" [.number type.number]
    else .ok ()

/-- A RIGHT JOIN becomes a LEFT JOIN with its inputs swapped. -/
def buildFromItem : FromItem → Outcome Node
  | .table name => .ok (.scan name)
  | .join left right type predicate => do
    validateJoinItem type predicate
    let outer := decide (type = .joinLeft ∨ type = .joinRight)
    if type = .joinRight then
      let first ← (buildFromItem right).wrap "building left join input: %w" []
      let second ← (buildFromItem left).wrap "building right join input: %w" []
      return .nestedLoopJoin first second predicate outer
    else
      let first ← (buildFromItem left).wrap "building left join input: %w" []
      let second ← (buildFromItem right).wrap "building right join input: %w" []
      return .nestedLoopJoin first second predicate outer

/-- What the loop over the select items has found out: whether there is an
aggregate, and whether there is anything else. -/
structure ItemKinds where
  hasAggregate : Bool
  hasNonAggregate : Bool
  deriving DecidableEq

/-- With a grouping, an item is an aggregate or the grouping column. -/
def checkItem (groupByColumn : Option Bytes) (i : Nat) (kinds : ItemKinds) (item : SelectItem) :
    Outcome ItemKinds :=
  match item.expression.kind with
  | .functionExpression => .ok { kinds with hasAggregate := true }
  | .columnReference =>
    match groupByColumn with
    | none => .ok { kinds with hasNonAggregate := true }
    | some column => do
      let columnName ← item.expression.value.toString
      if columnName ≠ column then
        fault "planner: column %q must appear in GROUP BY or be used in an aggregate function"
          [.bytes columnName]
      else .ok { kinds with hasNonAggregate := true }
  | _ =>
    if groupByColumn.isSome then
      fault "planner: SELECT item %d must be the GROUP BY column or an aggregate function"
        [.number (i + 1)]
    else .ok { kinds with hasNonAggregate := true }

def checkItems (groupByColumn : Option Bytes) : Nat → ItemKinds → List SelectItem →
    Outcome ItemKinds
  | _, kinds, [] => .ok kinds
  | i, kinds, item :: items => do
    checkItems groupByColumn (i + 1) (← checkItem groupByColumn i kinds item) items

def groupByColumnOf : Option Expression → Outcome (Option Bytes)
  | none => .ok none
  | some e =>
    if e.kind ≠ .columnReference then
      fault "planner: GROUP BY expression must be a column reference" []
    else some <$> e.value.toString

/-- The count of a LIMIT or an OFFSET. Every int64 fits into an int. -/
def countFromExpression (clause : String) (e : Expression) : Outcome Int64 := do
  match ← (valueFromExpression e).wrap ("planner: converting " ++ clause ++ " value: %w") [] with
  | .integer i =>
    if i.val < 0 then fault ("planner: " ++ clause ++ " must be a non-negative integer") []
    else .ok i
  | _ => fault ("planner: " ++ clause ++ " must be a non-negative integer") []

def filtered (node : Node) : Option Expression → Node
  | some predicate => .filter node predicate
  | none => node

def ordered (node : Node) (orderBy : List OrderBy) : Node :=
  if orderBy = [] then node else .order node orderBy

def counted (clause : String) (make : Node → Int64 → Node) (node : Node) :
    Option Expression → Outcome Node
  | some e => make node <$> countFromExpression clause e
  | none => .ok node

/-- FROM, WHERE, aggregation, HAVING, ORDER BY, OFFSET, LIMIT, projection. -/
def buildSelect (s : SelectStatement) : Outcome Node := do
  let node ← (buildFromItem s.fromItem).wrap "planner: building FROM clause: %w" []
  let node := filtered node s.whereClause
  let groupByColumn ← groupByColumnOf s.groupBy
  let kinds ← checkItems groupByColumn 0 ⟨false, false⟩ s.selectItems
  if s.groupBy.isNone && kinds.hasAggregate && kinds.hasNonAggregate then
    fault ("planner: aggregate functions cannot be mixed with non-aggregate expressions " ++
      "without GROUP BY") []
  else
    let isAggregateQuery := kinds.hasAggregate || s.groupBy.isSome
    let node := if isAggregateQuery then .aggregate node s.selectItems s.groupBy else node
    let node := filtered node s.having
    let node := ordered node s.orderBy
    let node ← counted "OFFSET" .offset node s.offset
    let node ← counted "LIMIT" .limit node s.limit
    return if s.selectItems ≠ [] && !isAggregateQuery then .projection node s.selectItems else node

def build : Statement → Outcome Node
  | .createTable s => do
    return .createTable (← (tableFromCreateStatement s).wrap
      "planner: building create-table plan: %w" [])
  | .insert s => .ok (.insert s.tableName s.columns s.values)
  | .select s => buildSelect s
  | .update s => .ok (.update s.tableName (filtered (.scan s.tableName) s.filter) s.assignments)
  | .delete s => .ok (.delete s.tableName (filtered (.scan s.tableName) s.filter))

end SpaceDB.Sql
