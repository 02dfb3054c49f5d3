import Mathlib.Data.Nat.Log
import SpaceDB.Proofs.LexedTokens

namespace SpaceDB.Proofs
open Lib Storage Sql

def digits : Nat → Nat → Bytes
  | 0, _ => []
  | k + 1, n => digits k (n / 10) ++ [Fin.ofNat 256 (48 + n % 10)]

def numeral (n : Nat) : Bytes := digits (Nat.log 10 n + 1) n

/-- A way to write the finite non-negative numbers as digits around a decimal
point, which reading takes back. -/
structure DecimalForm where
  whole : Float64 → Bytes
  fraction : Float64 → Bytes
  whole_digits : ∀ f, ∀ b ∈ whole f, isDigit b = true
  whole_ne_nil : ∀ f, whole f ≠ []
  fraction_digits : ∀ f, ∀ b ∈ fraction f, isDigit b = true
  fraction_ne_nil : ∀ f, fraction f ≠ []
  back : ∀ f : Float64, f.negative = false → f.finite = true →
    parseFloat (whole f ++ 46 :: fraction f) = some f

inductive Word where
  | keyword (k : Keyword)
  | name (s : Bytes)
  | string (s : Bytes)
  | integer (i : Sql.Int64)
  | float (f : Float64)
  | symbol (kind : Kind)

def symbolText : Kind → Bytes
  | .openParen => ascii "("
  | .closeParen => ascii ")"
  | .comma => ascii ","
  | .semicolon => ascii ";"
  | .asterisk => ascii "*"
  | .equal => ascii "="
  | .greaterThan => ascii ">"
  | .lessThan => ascii "<"
  | _ => []

namespace Word

def text (form : DecimalForm) : Word → Bytes
  | .keyword k => k.text
  | .name s => s
  | .string s => 39 :: s ++ [39]
  | .integer i => numeral i.val.toNat
  | .float f => form.whole f ++ 46 :: form.fraction f
  | .symbol kind => symbolText kind

def token (offset : Nat) : Word → Token
  | .keyword k => ⟨.keywordKind, some k, .nil, offset⟩
  | .name s => ⟨.identifier, none, .string s, offset⟩
  | .string s => ⟨.string, none, .string s, offset⟩
  | .integer i => ⟨.number, none, .int64 i, offset⟩
  | .float f => ⟨.number, none, .float64 f, offset⟩
  | .symbol kind => ⟨kind, none, .nil, offset⟩

/-- The token is the word, wherever it stands. -/
def Spells (w : Word) (t : Token) : Prop := ∃ offset, t = w.token offset

def Ok : Word → Prop
  | .keyword _ => True
  | .name s => Identifier s
  | .string s => 39 ∉ s
  | .integer i => 0 ≤ i.val
  | .float f => f.negative = false ∧ f.finite = true
  | .symbol kind => symbolText kind ≠ []

end Word

def operandWords (e : Expression) : List Word :=
  match e.kind, e.value with
  | .booleanLiteral, .bool b => [.keyword (if b then .keywordTrue else .keywordFalse)]
  | .integerLiteral, .int64 i => [.integer i]
  | .floatLiteral, .float64 f => [.float f]
  | .stringLiteral, .string s => [.string s]
  | .columnReference, .string name => [.name name]
  | .functionExpression, .functionCall call =>
    [.name call.name, .symbol .openParen, .name call.argument, .symbol .closeParen]
  | _, _ => [.keyword .keywordNull]

def operatorSymbol : OperationKind → Kind
  | .operationEqual => .equal
  | .operationGreaterThan => .greaterThan
  | .operationLessThan => .lessThan

def comparisonWords (e : Expression) : List Word :=
  match e.value with
  | .operation kind leftKind left rightKind right =>
    operandWords ⟨leftKind, left⟩ ++ .symbol (operatorSymbol kind) ::
      operandWords ⟨rightKind, right⟩
  | _ => []

def joinWords : JoinType → List Word
  | .joinCross => [.keyword .keywordCross, .keyword .keywordJoin]
  | .joinInner => [.keyword .keywordJoin]
  | .joinLeft => [.keyword .keywordLeft, .keyword .keywordJoin]
  | .joinRight => [.keyword .keywordRight, .keyword .keywordJoin]

/-- The ON clause. That of a RIGHT JOIN has its operands in the other order. -/
def conditionWords (type : JoinType) : Option Expression → List Word
  | some ⟨_, .operation _ leftKind left rightKind right⟩ =>
    .keyword .keywordOn ::
      if type = .joinRight then
        operandWords ⟨rightKind, right⟩ ++ .symbol .equal :: operandWords ⟨leftKind, left⟩
      else operandWords ⟨leftKind, left⟩ ++ .symbol .equal :: operandWords ⟨rightKind, right⟩
  | _ => []

def fromWords : FromItem → List Word
  | .table name => [.name name]
  | .join left right type predicate =>
    fromWords left ++ (joinWords type ++ (fromWords right ++ conditionWords type predicate))

def commaWords : List (List Word) → List Word
  | [] => []
  | ws :: wss => ws ++ wss.flatMap (.symbol .comma :: ·)

def optionalWords {α : Type} (keyword : Keyword) (words : α → List Word) : Option α → List Word
  | none => []
  | some a => .keyword keyword :: words a

def selectItemWords (item : SelectItem) : List Word :=
  operandWords item.expression ++ optionalWords .keywordAs (fun name => [.name name]) item.aliasName

def selectItemsWords (items : List SelectItem) : List Word :=
  if items = [] then [.symbol .asterisk] else commaWords (items.map selectItemWords)

def orderItemWords (o : OrderBy) : List Word :=
  [.name o.column,
    .keyword (if o.direction = .orderAscending then .keywordAsc else .keywordDesc)]

def orderByWords (orderBy : List OrderBy) : List Word :=
  if orderBy = [] then []
  else .keyword .keywordOrder :: .keyword .keywordBy :: commaWords (orderBy.map orderItemWords)

def selectWords (s : SelectStatement) : List Word :=
  .keyword .keywordSelect :: (selectItemsWords s.selectItems ++
    (.keyword .keywordFrom :: fromWords s.fromItem ++
      (optionalWords .keywordWhere comparisonWords s.whereClause ++
        (optionalWords .keywordGroup (fun e => .keyword .keywordBy :: operandWords e) s.groupBy ++
          (optionalWords .keywordHaving comparisonWords s.having ++
            (orderByWords s.orderBy ++
              (optionalWords .keywordLimit operandWords s.limit ++
                optionalWords .keywordOffset operandWords s.offset)))))))

def dataTypeKeyword : DataType → Keyword
  | .boolean => .keywordBoolean
  | .integer => .keywordInt
  | .float => .keywordFloat
  | .string => .keywordString

def nullableWords : Option Bool → List Word
  | none => []
  | some true => [.keyword .keywordNull]
  | some false => [.keyword .keywordNot, .keyword .keywordNull]

def primaryKeyWords (primaryKey : Bool) : List Word :=
  if primaryKey then [.keyword .keywordPrimary, .keyword .keywordKey] else []

def columnWords (c : ColumnDef) : List Word :=
  .name c.name :: .keyword (dataTypeKeyword c.dataType) ::
    (nullableWords c.nullable ++ (optionalWords .keywordDefault operandWords c.defaultValue ++
      primaryKeyWords c.primaryKey))

def parenthesisedWords (wss : List (List Word)) : List Word :=
  .symbol .openParen :: (commaWords wss ++ [.symbol .closeParen])

def insertColumnsWords (columns : List Bytes) : List Word :=
  if columns = [] then [] else parenthesisedWords (columns.map (fun name => [.name name]))

def assignmentWords (assignment : Bytes × Expression) : List Word :=
  .name assignment.1 :: .symbol .equal :: operandWords assignment.2

def statementWords : Statement → List Word
  | .select s => selectWords s
  | .createTable s => .keyword .keywordCreate :: .keyword .keywordTable :: .name s.name ::
      parenthesisedWords (s.columns.map columnWords)
  | .insert s => .keyword .keywordInsert :: .keyword .keywordInto :: .name s.tableName ::
      (insertColumnsWords s.columns ++ .keyword .keywordValues ::
        commaWords (s.values.map (fun row => parenthesisedWords (row.map operandWords))))
  | .update s => .keyword .keywordUpdate :: .name s.tableName :: .keyword .keywordSet ::
      (commaWords (s.assignments.entries.map assignmentWords) ++
        optionalWords .keywordWhere comparisonWords s.filter)
  | .delete s => .keyword .keywordDelete :: .keyword .keywordFrom :: .name s.tableName ::
      optionalWords .keywordWhere comparisonWords s.filter

/-- Words, a space after each of them, and a semicolon. -/
def spaced (form : DecimalForm) : List Word → Bytes
  | [] => symbolText .semicolon
  | w :: ws => w.text form ++ 32 :: spaced form ws

def print (form : DecimalForm) (s : Statement) : Bytes := spaced form (statementWords s)

end SpaceDB.Proofs
