import SpaceDB.Lib.Parser
import SpaceDB.Sql.Ast

namespace SpaceDB.Sql
open Lib Storage

/-- A method of the parser. The tokens from the current index on are its state. -/
abbrev ParserM := Parser Token Fault

namespace ParserM

def error {α : Type} (format : String) (args : List Arg) : ParserM α :=
  .fail (.error (.new format args))

def wrap {α : Type} (format : String) (args : List Arg) (p : ParserM α) : ParserM α :=
  p.mapError (Fault.wrap format args)

/-- Past its end the token list cannot be indexed. -/
def peek : ParserM Token
  | [] => .error (.panic "index out of range")
  | token :: rest => .ok (token, token :: rest)

/-- The end of the input is never consumed. -/
def next : ParserM Token
  | [] => .error (.panic "index out of range")
  | token :: rest => .ok (token, if token.kind = .endOfInput then token :: rest else rest)

def expect (kind : Kind) : ParserM Unit := do
  let token ← next
  if token.kind ≠ kind then
    error "parser: expected %s, got %s at offset %d"
      (.bytes (ascii kind.text) :: describeToken token ++ [.number token.offset])
  else return ()

def isKeyword (token : Token) (keyword : Keyword) : Bool :=
  token.kind = .keywordKind && token.keyword = some keyword

def expectKeyword (keyword : Keyword) : ParserM Unit := do
  let token ← next
  if !isKeyword token keyword then
    error "parser: expected keyword '%s', got %s at offset %d"
      (.bytes keyword.text :: describeToken token ++ [.number token.offset])
  else return ()

def stringValue (token : Token) : ParserM Bytes :=
  match token.value with
  | .string s => pure s
  | _ => .fail (.panic "interface conversion: not string")

def expectIdentifier : ParserM Bytes := do
  let token ← next
  if token.kind ≠ .identifier then
    error "parser: expected identifier, got %s at offset %d"
      (describeToken token ++ [.number token.offset])
  else stringValue token

/-- A round of a loop stands apart from the loop, with the rounds after it as an
argument. -/
def commaRound {α : Type} (item : ParserM α) (others : ParserM (List α)) : ParserM (List α) := do
  let a ← item
  if (← peek).kind ≠ .comma then return [a]
  else
    let _ ← next
    return a :: (← others)

/-- The loop `for { item; if no comma follows, break; skip the comma }`. -/
def commaLoop {α : Type} (item : ParserM α) : Nat → ParserM (List α)
  | 0 => .fail (.panic "out of fuel")
  | fuel + 1 => commaRound item (commaLoop item fuel)

def closeRound {α : Type} (item : ParserM α) (others : ParserM (List α)) : ParserM (List α) := do
  if (← peek).kind = .closeParen then return []
  else
    expect .comma
    let a ← item
    return a :: (← others)

/-- The loop `for the next token is no ')' { a comma; item }`. -/
def closeLoop {α : Type} (item : ParserM α) : Nat → ParserM (List α)
  | 0 => .fail (.panic "out of fuel")
  | fuel + 1 => closeRound item (closeLoop item fuel)

/-- A non-empty list in parentheses. The caller has seen the opening one. -/
def parenthesised {α : Type} (item : ParserM α) : ParserM (List α) := do
  let first ← item
  let others ← .fuelled (closeLoop item)
  expect .closeParen
  return first :: others

def parseExpression : ParserM Expression := do
  let token ← next
  match token.kind with
  | .identifier =>
    let name ← stringValue token
    if (← peek).kind ≠ .openParen then return ⟨.columnReference, .string name⟩
    else
      let _ ← next
      let argument ← wrap "parser: parsing argument of function %q: %w" [.bytes name]
        expectIdentifier
      wrap "parser: closing function %q: %w" [.bytes name] (expect .closeParen)
      return ⟨.functionExpression, .functionCall ⟨name, argument⟩⟩
  | .string => return ⟨.stringLiteral, .string (← stringValue token)⟩
  | .number =>
    match token.value with
    | .int64 value => return ⟨.integerLiteral, .int64 value⟩
    | .float64 value => return ⟨.floatLiteral, .float64 value⟩
    | _ => .fail (.panic "interface conversion: not float64")
  | .keywordKind =>
    match token.keyword with
    | some .keywordTrue => return ⟨.booleanLiteral, .bool true⟩
    | some .keywordFalse => return ⟨.booleanLiteral, .bool false⟩
    | some .keywordNull => return nullExpression
    | keyword =>
      error "parser: keyword '%s' is not an expression at offset %d"
        [.bytes (keyword.elim [] Keyword.text), .number token.offset]
  | _ =>
    error "parser: expected expression, got %s at offset %d"
      (describeToken token ++ [.number token.offset])

def operationOf : Kind → Option OperationKind
  | .equal => some .operationEqual
  | .greaterThan => some .operationGreaterThan
  | .lessThan => some .operationLessThan
  | _ => none

def parseComparisonExpression : ParserM Expression := do
  let left ← wrap "parsing left comparison operand: %w" [] parseExpression
  let operatorToken ← next
  match operationOf operatorToken.kind with
  | none =>
    error "expected comparison operator, got %s at offset %d"
      (describeToken operatorToken ++ [.number operatorToken.offset])
  | some operationKind =>
    let right ← wrap "parsing right comparison operand: %w" [] parseExpression
    return .operation operationKind left right

def optional {α : Type} (keyword : Keyword) (clause : ParserM α) : ParserM (Option α) := do
  if !isKeyword (← peek) keyword then return none
  else
    let _ ← next
    return some (← clause)

def parseOptionalComparison (keyword : Keyword) : ParserM (Option Expression) :=
  optional keyword
    (wrap "parser: parsing %s predicate: %w" [.bytes keyword.text] parseComparisonExpression)

def parseJoinType : ParserM (Option JoinType) := do
  let current ← peek
  if current.kind ≠ .keywordKind then return none
  else
    match current.keyword with
    | some .keywordCross =>
      let _ ← next
      expectKeyword .keywordJoin
      return some .joinCross
    | some .keywordJoin =>
      let _ ← next
      return some .joinInner
    | some .keywordLeft =>
      let _ ← next
      expectKeyword .keywordJoin
      return some .joinLeft
    | some .keywordRight =>
      let _ ← next
      expectKeyword .keywordJoin
      return some .joinRight
    | _ => return none

/-- The condition of a join. A RIGHT JOIN swaps its operands, as the planner
will swap its inputs. -/
def parseJoinPredicate (joinType : JoinType) : ParserM (Option Expression) := do
  if joinType = .joinCross then return none
  else
    expectKeyword .keywordOn
    let left ← wrap "parser: parsing left JOIN operand: %w" [] parseExpression
    expect .equal
    let right ← wrap "parser: parsing right JOIN operand: %w" [] parseExpression
    if joinType = .joinRight then return some (.operation .operationEqual right left)
    else return some (.operation .operationEqual left right)

/-- Every join takes what is left of it as its left side. -/
def joinRound (others : FromItem → ParserM FromItem) (item : FromItem) : ParserM FromItem := do
  match ← parseJoinType with
  | none => return item
  | some joinType =>
    let rightName ← expectIdentifier
    let predicate ← parseJoinPredicate joinType
    others (.join item (.table rightName) joinType predicate)

def joinLoop : Nat → FromItem → ParserM FromItem
  | 0, _ => .fail (.panic "out of fuel")
  | fuel + 1, item => joinRound (joinLoop fuel) item

def parseFromClause : ParserM FromItem := do
  expectKeyword .keywordFrom
  let tableName ← expectIdentifier
  .fuelled (fun fuel => joinLoop fuel (.table tableName))

def parseSelectItem : ParserM SelectItem := do
  let expression ← wrap "parser: parsing SELECT expression: %w" [] parseExpression
  let aliasName ← optional .keywordAs
    (wrap "parser: parsing SELECT alias: %w" [] expectIdentifier)
  return ⟨expression, aliasName⟩

def parseSelectItems : ParserM (List SelectItem) := do
  if (← peek).kind = .asterisk then
    let _ ← next
    return []
  else .fuelled (commaLoop parseSelectItem)

def parseGroupBy : ParserM (Option Expression) :=
  optional .keywordGroup do
    wrap "parser: parsing GROUP BY clause: %w" [] (expectKeyword .keywordBy)
    wrap "parser: parsing GROUP BY expression: %w" [] parseExpression

def parseOrderItem : ParserM OrderBy := do
  let columnName ← expectIdentifier
  let current ← peek
  if isKeyword current .keywordAsc then
    let _ ← next
    return ⟨columnName, .orderAscending⟩
  else if isKeyword current .keywordDesc then
    let _ ← next
    return ⟨columnName, .orderDescending⟩
  else return ⟨columnName, .orderAscending⟩

def parseOrderBy : ParserM (List OrderBy) := do
  if !isKeyword (← peek) .keywordOrder then return []
  else
    let _ ← next
    expectKeyword .keywordBy
    .fuelled (commaLoop parseOrderItem)

def parseSelect : ParserM SelectStatement := do
  expectKeyword .keywordSelect
  let selectItems ← parseSelectItems
  let fromItem ← wrap "parser: parsing FROM clause: %w" [] parseFromClause
  let whereClause ← parseOptionalComparison .keywordWhere
  let groupBy ← parseGroupBy
  let having ← parseOptionalComparison .keywordHaving
  let orderBy ← parseOrderBy
  let limit ← optional .keywordLimit (wrap "parser: parsing LIMIT value: %w" [] parseExpression)
  let offset ← optional .keywordOffset (wrap "parser: parsing OFFSET value: %w" [] parseExpression)
  return ⟨fromItem, selectItems, whereClause, groupBy, having, orderBy, limit, offset⟩

def constraintRound (others : ColumnDef → ParserM ColumnDef) (column : ColumnDef) :
    ParserM ColumnDef := do
  let current ← peek
  if current.kind ≠ .keywordKind then return column
  else
    match current.keyword with
    | some .keywordNull =>
      let _ ← next
      others { column with nullable := some true }
    | some .keywordNot =>
      let _ ← next
      expectKeyword .keywordNull
      others { column with nullable := some false }
    | some .keywordDefault =>
      let _ ← next
      let expression ← parseExpression
      others { column with defaultValue := some expression }
    | some .keywordPrimary =>
      let _ ← next
      expectKeyword .keywordKey
      others { column with primaryKey := true }
    | keyword =>
      error "parser: unexpected column constraint '%s' at offset %d"
        [.bytes (keyword.elim [] Keyword.text), .number current.offset]

/-- The constraints of a column in any order; the last one of a kind counts. -/
def constraintLoop : Nat → ColumnDef → ParserM ColumnDef
  | 0, _ => .fail (.panic "out of fuel")
  | fuel + 1, column => constraintRound (constraintLoop fuel) column

def parseColumn : ParserM ColumnDef := do
  let name ← expectIdentifier
  let token ← next
  if token.kind ≠ .keywordKind then
    error "parser: expected column data type, got %s at offset %d"
      (describeToken token ++ [.number token.offset])
  else
    match token.keyword.bind keywordDataType with
    | none =>
      error "parser: unexpected column data type '%s' at offset %d"
        [.bytes (token.keyword.elim [] Keyword.text), .number token.offset]
    | some dataType =>
      .fuelled (fun fuel => constraintLoop fuel ⟨name, dataType, none, none, false⟩)

def parseCreateTable : ParserM CreateTableStatement := do
  expectKeyword .keywordCreate
  expectKeyword .keywordTable
  let tableName ← expectIdentifier
  expect .openParen
  let columns ← .fuelled (commaLoop parseColumn)
  expect .closeParen
  return ⟨tableName, columns⟩

def parseInsertColumns : ParserM (List Bytes) := do
  if (← peek).kind ≠ .openParen then return []
  else
    let _ ← next
    parenthesised expectIdentifier

def parseValueRow : ParserM (List Expression) := do
  expect .openParen
  parenthesised parseExpression

def parseInsert : ParserM InsertStatement := do
  expectKeyword .keywordInsert
  expectKeyword .keywordInto
  let tableName ← expectIdentifier
  let columns ← parseInsertColumns
  expectKeyword .keywordValues
  let values ← .fuelled (commaLoop parseValueRow)
  return ⟨tableName, columns, values⟩

/-- A column may be assigned once. -/
def assignmentRound (others : OrderedMap Bytes Expression → ParserM (OrderedMap Bytes Expression))
    (assignments : OrderedMap Bytes Expression) : ParserM (OrderedMap Bytes Expression) := do
  let columnOffset := (← peek).offset
  let columnName ← expectIdentifier
  expect .equal
  let value ← parseExpression
  if (assignments.find? columnName).isSome then
    error "parser: duplicate update column %q at offset %d"
      [.bytes columnName, .number columnOffset]
  else
    let assignments := assignments.insert columnName value
    if (← peek).kind ≠ .comma then return assignments
    else
      let _ ← next
      others assignments

def assignmentLoop : Nat → OrderedMap Bytes Expression → ParserM (OrderedMap Bytes Expression)
  | 0, _ => .fail (.panic "out of fuel")
  | fuel + 1, assignments => assignmentRound (assignmentLoop fuel) assignments

def parseUpdate : ParserM UpdateStatement := do
  expectKeyword .keywordUpdate
  let tableName ← expectIdentifier
  expectKeyword .keywordSet
  let assignments ← .fuelled (fun fuel => assignmentLoop fuel .empty)
  let filter ← parseOptionalComparison .keywordWhere
  return ⟨tableName, assignments, filter⟩

def parseDelete : ParserM DeleteStatement := do
  expectKeyword .keywordDelete
  expectKeyword .keywordFrom
  let tableName ← expectIdentifier
  let filter ← parseOptionalComparison .keywordWhere
  return ⟨tableName, filter⟩

def parseStatement : ParserM Statement := do
  let current ← peek
  if current.kind = .endOfInput then
    error "parser: expected statement, got end of input at offset %d" [.number current.offset]
  else if current.kind ≠ .keywordKind then
    error "parser: statement must begin with a keyword, got %s at offset %d"
      (describeToken current ++ [.number current.offset])
  else
    match current.keyword with
    | some .keywordSelect => return .select (← parseSelect)
    | some .keywordCreate => return .createTable (← parseCreateTable)
    | some .keywordInsert => return .insert (← parseInsert)
    | some .keywordUpdate => return .update (← parseUpdate)
    | some .keywordDelete => return .delete (← parseDelete)
    | _ => error "parser: unsupported statement" []

end ParserM

def parseTokens : ParserM Statement := do
  let statement ← ParserM.parseStatement
  ParserM.expect .semicolon
  ParserM.expect .endOfInput
  return statement

def parse (input : Bytes) : Outcome Statement :=
  match lex input with
  | .error e => .error e
  | .ok tokens => (parseTokens tokens).map Prod.fst

end SpaceDB.Sql
