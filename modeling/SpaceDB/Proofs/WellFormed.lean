import SpaceDB.Sql.Parser

namespace SpaceDB.Proofs
open Lib Storage Sql

def lowerStart (b : Byte) : Prop := 97 ≤ b ∧ b ≤ 122 ∨ b = 95

def lowerPart (b : Byte) : Prop := lowerStart b ∨ 48 ≤ b ∧ b ≤ 57

/-- The names that the lexer makes: `[a-z_][a-z0-9_]*`, and no keyword. -/
structure Identifier (name : Bytes) : Prop where
  start : ∃ b rest, name = b :: rest ∧ lowerStart b ∧ ∀ c ∈ rest, lowerPart c
  free : keywordFromIdentifier name = none

inductive Operand : Expression → Prop where
  | null : Operand nullExpression
  | boolean (b : Bool) : Operand ⟨.booleanLiteral, .bool b⟩
  | integer {i : Sql.Int64} (nonneg : 0 ≤ i.val) : Operand ⟨.integerLiteral, .int64 i⟩
  | float {f : Float64} (nonneg : f.negative = false) (finite : f.finite = true) :
      Operand ⟨.floatLiteral, .float64 f⟩
  | string {s : Bytes} (quoteFree : 39 ∉ s) : Operand ⟨.stringLiteral, .string s⟩
  | column {name : Bytes} (named : Identifier name) : Operand ⟨.columnReference, .string name⟩
  | function {call : FunctionCall} (name : Identifier call.name)
      (argument : Identifier call.argument) : Operand ⟨.functionExpression, .functionCall call⟩

inductive Comparison : Expression → Prop where
  | mk (kind : OperationKind) {left right : Expression} (first : Operand left)
      (second : Operand right) : Comparison (.operation kind left right)

/-- Joins lean to the left and have a table on their right. -/
inductive JoinChain : FromItem → Prop where
  | table {name : Bytes} (named : Identifier name) : JoinChain (.table name)
  | cross {item : FromItem} {name : Bytes} (chain : JoinChain item) (named : Identifier name) :
      JoinChain (.join item (.table name) .joinCross none)
  | on {item : FromItem} {name : Bytes} {type : JoinType} {left right : Expression}
      (chain : JoinChain item) (named : Identifier name) (conditional : type ≠ .joinCross)
      (first : Operand left) (second : Operand right) :
      JoinChain (.join item (.table name) type (some (.operation .operationEqual left right)))

/-- What holds of an optional clause when it is there. -/
def Given {α : Type} (P : α → Prop) (o : Option α) : Prop := ∀ a, o = some a → P a

theorem given_none {α : Type} {P : α → Prop} : Given P none := by
  intro a h
  cases h

theorem given_some {α : Type} {P : α → Prop} {a : α} (h : P a) : Given P (some a) := by
  intro b hb
  cases hb
  exact h

structure ColumnOk (c : ColumnDef) : Prop where
  name : Identifier c.name
  default : Given Operand c.defaultValue

structure SelectItemOk (item : SelectItem) : Prop where
  expression : Operand item.expression
  aliasName : Given Identifier item.aliasName

structure SelectOk (s : SelectStatement) : Prop where
  chain : JoinChain s.fromItem
  items : ∀ item ∈ s.selectItems, SelectItemOk item
  whereClause : Given Comparison s.whereClause
  groupBy : Given Operand s.groupBy
  having : Given Comparison s.having
  orderBy : ∀ o ∈ s.orderBy, Identifier o.column
  limit : Given Operand s.limit
  offset : Given Operand s.offset

/-- The statements as they are described, kind by kind; nothing is said about
how many columns a table has. -/
def Described : Statement → Prop
  | .createTable s => Identifier s.name ∧ ∀ c ∈ s.columns, ColumnOk c
  | .insert s => Identifier s.tableName ∧ (∀ c ∈ s.columns, Identifier c) ∧ s.values ≠ [] ∧
      ∀ row ∈ s.values, row ≠ [] ∧ ∀ e ∈ row, Operand e
  | .select s => SelectOk s
  | .update s => Identifier s.tableName ∧ s.assignments.entries ≠ [] ∧
      (∀ e ∈ s.assignments.entries, Identifier e.1 ∧ Operand e.2) ∧ Given Comparison s.filter
  | .delete s => Identifier s.tableName ∧ Given Comparison s.filter

def Columned : Statement → Prop
  | .createTable s => s.columns ≠ []
  | _ => True

/-- The statements that have a text. -/
def WellFormed (s : Statement) : Prop := Described s ∧ Columned s

end SpaceDB.Proofs
