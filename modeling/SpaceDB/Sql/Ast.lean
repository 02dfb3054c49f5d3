import SpaceDB.Lib.OrderedMap
import SpaceDB.Sql.Lexer

namespace SpaceDB.Sql
open Lib Storage

inductive ExpressionKind where
  | null
  | booleanLiteral
  | integerLiteral
  | floatLiteral
  | stringLiteral
  | operationExpression
  | functionExpression
  | columnReference
  deriving DecidableEq

def ExpressionKind.number : ExpressionKind → Nat
  | null => 0
  | booleanLiteral => 1
  | integerLiteral => 2
  | floatLiteral => 3
  | stringLiteral => 4
  | operationExpression => 5
  | functionExpression => 6
  | columnReference => 7

inductive OperationKind where
  | operationEqual
  | operationGreaterThan
  | operationLessThan
  deriving DecidableEq

structure FunctionCall where
  name : Bytes
  argument : Bytes
  deriving DecidableEq

/-- The payload of an expression, of Go's type `any`: nothing ties it to the
kind. An operation carries the kind and payload of its two operands. -/
inductive Payload where
  | nil
  | bool (b : Bool)
  | int64 (i : Int64)
  | float64 (f : Float64)
  | string (s : Bytes)
  | functionCall (call : FunctionCall)
  | operation (kind : OperationKind) (leftKind : ExpressionKind) (left : Payload)
      (rightKind : ExpressionKind) (right : Payload)
  deriving DecidableEq

structure Expression where
  kind : ExpressionKind
  value : Payload
  deriving DecidableEq

def nullExpression : Expression := ⟨.null, .nil⟩

def Expression.operation (kind : OperationKind) (left right : Expression) : Expression :=
  ⟨.operationExpression, .operation kind left.kind left.value right.kind right.value⟩

namespace Payload

/-- The type assertions of the program on payloads. -/
def toBool : Payload → Outcome Bool
  | .bool b => .ok b
  | _ => .error (.panic "interface conversion: not bool")

def toInt64 : Payload → Outcome Int64
  | .int64 i => .ok i
  | _ => .error (.panic "interface conversion: not int64")

def toFloat64 : Payload → Outcome Float64
  | .float64 f => .ok f
  | _ => .error (.panic "interface conversion: not float64")

def toString : Payload → Outcome Bytes
  | .string s => .ok s
  | _ => .error (.panic "interface conversion: not string")

def toFunctionCall : Payload → Outcome FunctionCall
  | .functionCall call => .ok call
  | _ => .error (.panic "interface conversion: not FunctionCall")

end Payload

/-- A column of CREATE TABLE. `nullable` is missing when neither NULL nor NOT
NULL was written. -/
structure ColumnDef where
  name : Bytes
  dataType : DataType
  nullable : Option Bool
  defaultValue : Option Expression
  primaryKey : Bool
  deriving DecidableEq

inductive OrderDirection where
  | orderAscending
  | orderDescending
  deriving DecidableEq

structure OrderBy where
  column : Bytes
  direction : OrderDirection
  deriving DecidableEq

structure SelectItem where
  expression : Expression
  aliasName : Option Bytes
  deriving DecidableEq

inductive JoinType where
  | joinCross
  | joinInner
  | joinLeft
  | joinRight
  deriving DecidableEq

def JoinType.number : JoinType → Nat
  | joinCross => 0
  | joinInner => 1
  | joinLeft => 2
  | joinRight => 3

inductive FromItem where
  | table (name : Bytes)
  | join (left right : FromItem) (type : JoinType) (predicate : Option Expression)
  deriving DecidableEq

/-- Without select items the statement is SELECT *. -/
structure SelectStatement where
  fromItem : FromItem
  selectItems : List SelectItem
  whereClause : Option Expression
  groupBy : Option Expression
  having : Option Expression
  orderBy : List OrderBy
  limit : Option Expression
  offset : Option Expression
  deriving DecidableEq

structure CreateTableStatement where
  name : Bytes
  columns : List ColumnDef
  deriving DecidableEq

/-- Without a column list `columns` is empty. -/
structure InsertStatement where
  tableName : Bytes
  columns : List Bytes
  values : List (List Expression)
  deriving DecidableEq

instance {α β : Type} [LinearOrder α] [DecidableEq β] : DecidableEq (OrderedMap α β) := fun a b =>
  decidable_of_iff (a.entries = b.entries) OrderedMap.ext_iff.symm

structure UpdateStatement where
  tableName : Bytes
  assignments : OrderedMap Bytes Expression
  filter : Option Expression
  deriving DecidableEq

structure DeleteStatement where
  tableName : Bytes
  filter : Option Expression
  deriving DecidableEq

inductive Statement where
  | createTable (s : CreateTableStatement)
  | insert (s : InsertStatement)
  | select (s : SelectStatement)
  | update (s : UpdateStatement)
  | delete (s : DeleteStatement)
  deriving DecidableEq

def keywordDataType : Keyword → Option DataType
  | .keywordInt | .keywordInteger => some .integer
  | .keywordBoolean | .keywordBool => some .boolean
  | .keywordFloat | .keywordDouble => some .float
  | .keywordString | .keywordText | .keywordVarchar => some .string
  | _ => none

end SpaceDB.Sql
