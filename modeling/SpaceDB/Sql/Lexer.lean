import SpaceDB.Sql.Values

namespace SpaceDB.Sql
open Lib Storage

inductive Keyword where
  | keywordCreate | keywordTable | keywordInt | keywordInteger | keywordBoolean | keywordBool
  | keywordString | keywordText | keywordVarchar | keywordFloat | keywordDouble | keywordSelect
  | keywordFrom | keywordInsert | keywordInto | keywordValues | keywordTrue | keywordFalse
  | keywordDefault | keywordNot | keywordNull | keywordPrimary | keywordKey | keywordUpdate
  | keywordSet | keywordWhere | keywordDelete | keywordGroup | keywordHaving | keywordOrder
  | keywordBy | keywordAsc | keywordDesc | keywordLimit | keywordOffset | keywordAs | keywordCross
  | keywordJoin | keywordLeft | keywordRight | keywordOn
  deriving DecidableEq

def ascii (s : String) : Bytes := s.toList.map (fun c => Fin.ofNat 256 c.toNat)

def Keyword.text : Keyword → Bytes
  | keywordCreate => ascii "CREATE"
  | keywordTable => ascii "TABLE"
  | keywordInt => ascii "INT"
  | keywordInteger => ascii "INTEGER"
  | keywordBoolean => ascii "BOOLEAN"
  | keywordBool => ascii "BOOL"
  | keywordString => ascii "STRING"
  | keywordText => ascii "TEXT"
  | keywordVarchar => ascii "VARCHAR"
  | keywordFloat => ascii "FLOAT"
  | keywordDouble => ascii "DOUBLE"
  | keywordSelect => ascii "SELECT"
  | keywordFrom => ascii "FROM"
  | keywordInsert => ascii "INSERT"
  | keywordInto => ascii "INTO"
  | keywordValues => ascii "VALUES"
  | keywordTrue => ascii "TRUE"
  | keywordFalse => ascii "FALSE"
  | keywordDefault => ascii "DEFAULT"
  | keywordNot => ascii "NOT"
  | keywordNull => ascii "NULL"
  | keywordPrimary => ascii "PRIMARY"
  | keywordKey => ascii "KEY"
  | keywordUpdate => ascii "UPDATE"
  | keywordSet => ascii "SET"
  | keywordWhere => ascii "WHERE"
  | keywordDelete => ascii "DELETE"
  | keywordGroup => ascii "GROUP"
  | keywordHaving => ascii "HAVING"
  | keywordOrder => ascii "ORDER"
  | keywordBy => ascii "BY"
  | keywordAsc => ascii "ASC"
  | keywordDesc => ascii "DESC"
  | keywordLimit => ascii "LIMIT"
  | keywordOffset => ascii "OFFSET"
  | keywordAs => ascii "AS"
  | keywordCross => ascii "CROSS"
  | keywordJoin => ascii "JOIN"
  | keywordLeft => ascii "LEFT"
  | keywordRight => ascii "RIGHT"
  | keywordOn => ascii "ON"

/-- The keywords in the order of the switch in `KeywordFromIdentifier`. -/
def Keyword.all : List Keyword :=
  [keywordCreate, keywordTable, keywordInt, keywordInteger, keywordBoolean, keywordBool,
    keywordString, keywordText, keywordVarchar, keywordFloat, keywordDouble, keywordSelect,
    keywordFrom, keywordInsert, keywordInto, keywordValues, keywordTrue, keywordFalse,
    keywordDefault, keywordNot, keywordNull, keywordPrimary, keywordKey, keywordUpdate, keywordSet,
    keywordWhere, keywordDelete, keywordOrder, keywordBy, keywordAsc, keywordDesc, keywordLimit,
    keywordOffset, keywordAs, keywordCross, keywordJoin, keywordLeft, keywordRight, keywordOn,
    keywordGroup, keywordHaving]

inductive Kind where
  | endOfInput | keywordKind | identifier | string | number | openParen | closeParen | comma
  | semicolon | asterisk | plus | minus | slash | equal | greaterThan | lessThan
  deriving DecidableEq

def Kind.text : Kind → String
  | endOfInput => "end of input"
  | keywordKind => "keyword"
  | identifier => "identifier"
  | string => "string literal"
  | number => "number literal"
  | openParen => "'('"
  | closeParen => "')'"
  | comma => "','"
  | semicolon => "';'"
  | asterisk => "'*'"
  | plus => "'+'"
  | minus => "'-'"
  | slash => "'/'"
  | equal => "'='"
  | greaterThan => "'>'"
  | lessThan => "'<'"

/-- The payload of a token, of Go's type `any`. -/
inductive TokenValue where
  | nil
  | int64 (i : Int64)
  | float64 (f : Float64)
  | string (s : Bytes)
  deriving DecidableEq

structure Token where
  kind : Kind
  /-- Missing in every token that is not a keyword. -/
  keyword : Option Keyword
  value : TokenValue
  offset : Nat
  deriving DecidableEq

def toUpper (b : Byte) : Byte := if 97 ≤ b ∧ b ≤ 122 then b - 32 else b

def toLower (b : Byte) : Byte := if 65 ≤ b ∧ b ≤ 90 then b + 32 else b

def keywordFromIdentifier (identifier : Bytes) : Option Keyword :=
  Keyword.all.find? (fun keyword => decide (keyword.text = identifier.map toUpper))

/-- The text of `DescribeToken` as the arguments that go into it. -/
def describeToken (token : Token) : List Arg :=
  match token.kind with
  | .keywordKind => [.bytes (ascii "keyword"), .bytes (token.keyword.elim [] Keyword.text)]
  | kind => .bytes (ascii kind.text) ::
    match token.value with
    | .nil => []
    | .int64 i => [.number i.val]
    | .float64 f => [.number f.bits.val]
    | .string s => [.bytes s]

def isSpace (b : Byte) : Bool :=
  b = 32 || b = 9 || b = 13 || b = 10 || b = 12 || b = 11

def isDigit (b : Byte) : Bool := 48 ≤ b && b ≤ 57

def isIdentifierStart (b : Byte) : Bool :=
  97 ≤ b && b ≤ 122 || 65 ≤ b && b ≤ 90 || b = 95

def isIdentifierPart (b : Byte) : Bool := isIdentifierStart b || isDigit b

def decimal (digits : Bytes) : Nat := digits.foldl (fun n b => 10 * n + (b.val - 48)) 0

/-- `strconv.ParseInt` on digits: the value, unless it is out of range. -/
def parseInt (text : Bytes) : Option Int64 :=
  if h : decimal text < 2 ^ 63 then some ⟨decimal text, by omega, by omega⟩ else none

/-- `strconv.ParseFloat` on digits around a decimal point: the nearest number,
unless that is infinite. -/
def parseFloat (text : Bytes) : Option Float64 :=
  let whole := text.takeWhile isDigit
  let fraction := text.drop (whole.length + 1)
  let m := Float64.nearest (decimal (whole ++ fraction)) (10 ^ fraction.length)
  if m < Float64.infinite then some (.ofMagnitude false m) else none

structure Lexer where
  rest : Bytes
  offset : Nat

namespace Lexer

def skip (l : Lexer) (n : Nat) : Lexer := ⟨l.rest.drop n, l.offset + n⟩

def skipWhitespace (l : Lexer) : Lexer := l.skip (l.rest.takeWhile isSpace).length

def scanIdentifier (l : Lexer) : Token × Lexer :=
  let text := l.rest.takeWhile isIdentifierPart
  let token := match keywordFromIdentifier text with
    | some keyword => ⟨.keywordKind, some keyword, .nil, l.offset⟩
    | none => ⟨.identifier, none, .string (text.map toLower), l.offset⟩
  (token, l.skip text.length)

def scanNumber (l : Lexer) : Outcome (Token × Lexer) :=
  let whole := l.rest.takeWhile isDigit
  match l.rest.drop whole.length with
  | 46 :: rest =>
    let fraction := rest.takeWhile isDigit
    if fraction = [] then
      fault "lexer: digits required after decimal point at offset %d" [.number l.offset]
    else
      let text := whole ++ 46 :: fraction
      match parseFloat text with
      | none =>
        fault "lexer: invalid number literal %q at offset %d" [.bytes text, .number l.offset]
      | some value => .ok (⟨.number, none, .float64 value, l.offset⟩, l.skip text.length)
  | _ =>
    match parseInt whole with
    | none => fault "lexer: integer literal out of range at offset %d" [.number l.offset]
    | some value => .ok (⟨.number, none, .int64 value, l.offset⟩, l.skip whole.length)

/-- There is no escape: the string ends at the next quote. -/
def scanString (l : Lexer) : Outcome (Token × Lexer) :=
  let value := (l.rest.drop 1).takeWhile (fun b => decide (b ≠ 39))
  if (l.rest.drop 1).length ≤ value.length then
    fault "lexer: unterminated string literal at offset %d" [.number l.offset]
  else .ok (⟨.string, none, .string value, l.offset⟩, l.skip (value.length + 2))

def symbolKind (b : Byte) : Option Kind :=
  if b = 40 then some .openParen
  else if b = 41 then some .closeParen
  else if b = 44 then some .comma
  else if b = 59 then some .semicolon
  else if b = 42 then some .asterisk
  else if b = 43 then some .plus
  else if b = 45 then some .minus
  else if b = 47 then some .slash
  else if b = 61 then some .equal
  else if b = 62 then some .greaterThan
  else if b = 60 then some .lessThan
  else none

def scanSymbol (l : Lexer) (b : Byte) : Outcome (Token × Lexer) :=
  match symbolKind b with
  | some kind => .ok (⟨kind, none, .nil, l.offset⟩, l.skip 1)
  | none => fault "lexer: unexpected character %q at offset %d" [.bytes [b], .number l.offset]

/-- `Next` past the whitespace: the first byte decides what is scanned. -/
def scan (l : Lexer) : Outcome (Token × Lexer) :=
  match l.rest with
  | [] => .ok (⟨.endOfInput, none, .nil, l.offset⟩, l)
  | b :: _ =>
    if b = 39 then l.scanString
    else if isDigit b then l.scanNumber
    else if isIdentifierStart b then .ok l.scanIdentifier
    else l.scanSymbol b

def next (l : Lexer) : Outcome (Token × Lexer) := l.skipWhitespace.scan

/-- Every token before the last consumes a byte, so that the length of the
input is fuel enough. -/
def tokenizeAll : Nat → Lexer → Outcome (List Token)
  | 0, _ => .error (.panic "out of fuel")
  | fuel + 1, l =>
    match l.next with
    | .error e => .error e
    | .ok (token, l) =>
      if token.kind = .endOfInput then .ok [token]
      else (tokenizeAll fuel l).map (token :: ·)

end Lexer

def lex (input : Bytes) : Outcome (List Token) :=
  Lexer.tokenizeAll (input.length + 1) ⟨input, 0⟩

end SpaceDB.Sql
