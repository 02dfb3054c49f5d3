import SpaceDB.Engine.Session
import SpaceDB.Proofs.RoundTrip

namespace SpaceDB.Proofs
open Lib Storage Sql Engine

structure Source where
  name : Bytes
  table : Table
  rows : List Row

def Source.columns (s : Source) : List Bytes := s.table.columns.map Column.name

/-- One join of a FROM clause. The operands of the ON clause are in the order
of the text; those of a CROSS JOIN, which has no ON clause, do not count. -/
structure JoinClause where
  type : JoinType
  source : Source
  left : Expression
  right : Expression

inductive JoinOperand (columns : List Bytes) : Expression → Prop where
  | null : JoinOperand columns nullExpression
  | boolean (b : Bool) : JoinOperand columns ⟨.booleanLiteral, .bool b⟩
  | integer (i : Sql.Int64) : JoinOperand columns ⟨.integerLiteral, .int64 i⟩
  | float (f : Float64) : JoinOperand columns ⟨.floatLiteral, .float64 f⟩
  | string (s : Bytes) : JoinOperand columns ⟨.stringLiteral, .string s⟩
  | column {name : Bytes} (known : name ∈ columns) :
      JoinOperand columns ⟨.columnReference, .string name⟩

/-- The left operand of an ON clause is about the tables so far, which have the
given columns, and the right one is about the new table. -/
def ChainOk : List Bytes → List JoinClause → Prop
  | _, [] => True
  | columns, j :: joins =>
    (j.type ≠ .joinCross → JoinOperand columns j.left ∧ JoinOperand j.source.columns j.right) ∧
      ChainOk (columns ++ j.source.columns) joins

def JoinClause.words (j : JoinClause) : List Word :=
  joinWords j.type ++ .name j.source.name :: if j.type = .joinCross then []
    else .keyword .keywordOn :: (operandWords j.left ++ .symbol .equal :: operandWords j.right)

def chainWords (base : Source) (joins : List JoinClause) : List Word :=
  .keyword .keywordSelect :: .symbol .asterisk :: .keyword .keywordFrom :: .name base.name ::
    joins.flatMap JoinClause.words

def JoinClause.predicate (j : JoinClause) : Option Expression :=
  match j.type with
  | .joinCross => none
  | .joinRight => some (.operation .operationEqual j.right j.left)
  | .joinInner | .joinLeft => some (.operation .operationEqual j.left j.right)

def JoinClause.step (j : JoinClause) : JoinStep := ⟨j.type, j.source.name, j.predicate⟩

theorem JoinClause.step_words (j : JoinClause) : j.step.words = j.words := by
  obtain ⟨type, source, left, right⟩ := j
  cases type <;> rfl

def chainStatement (base : Source) (joins : List JoinClause) : SelectStatement :=
  ⟨joined (.table base.name) (joins.map JoinClause.step), [], none, none, none, [], none, none⟩

theorem statementWords_chain (base : Source) (joins : List JoinClause) :
    statementWords (.select (chainStatement base joins)) = chainWords base joins := by
  have hwords : fromWords (chainStatement base joins).fromItem =
      .name base.name :: joins.flatMap JoinClause.words := by
    change fromWords (joined _ _) = _
    rw [fromWords_joined, List.flatMap_map]
    simp only [JoinClause.step_words]
    rfl
  change selectWords _ = _
  unfold selectWords
  rw [hwords]
  simp [chainStatement, chainWords, selectItemsWords, optionalWords, orderByWords]

/-- What the lexer has put into the tokens of an operand can be written. -/
theorem JoinOperand.operand {columns : List Bytes} {e : Expression} (h : JoinOperand columns e)
    (hgood : ∀ w ∈ operandWords e, ∃ o, Good (w.token o)) : Operand e := by
  cases h with
  | null => exact .null
  | boolean b => exact .boolean b
  | integer i =>
    obtain ⟨o, ⟨i', hi, hnonneg⟩ | ⟨f, hf, -⟩⟩ := hgood _ List.mem_cons_self
    · cases hi
      exact .integer hnonneg
    · cases hf
  | float f =>
    obtain ⟨o, ⟨i, hi, -⟩ | ⟨f', hf, hsign, hfinite⟩⟩ := hgood _ List.mem_cons_self
    · cases hi
    · cases hf
      exact .float hsign hfinite
  | string s =>
    obtain ⟨o, s', hs, hquote⟩ := hgood _ List.mem_cons_self
    cases hs
    exact .string hquote
  | column hknown =>
    obtain ⟨o, s, hs, hname⟩ := hgood _ List.mem_cons_self
    cases hs
    exact .column hname

theorem name_good {s : Bytes} (h : ∃ o, Good ((Word.name s).token o)) : Identifier s := by
  obtain ⟨o, s', hs, hname⟩ := h
  cases hs
  exact hname

theorem JoinClause.step_ok {columns : List Bytes} {j : JoinClause}
    (hoperands : j.type ≠ .joinCross →
      JoinOperand columns j.left ∧ JoinOperand j.source.columns j.right)
    (hgood : ∀ w ∈ j.words, ∃ o, Good (w.token o)) : j.step.Ok := by
  obtain ⟨type, source, left, right⟩ := j
  have hname : Identifier source.name := name_good (hgood _ (by simp [JoinClause.words]))
  have hparts : type ≠ .joinCross → Operand left ∧ Operand right := by
    intro htype
    obtain ⟨hleft, hright⟩ := hoperands htype
    constructor
    · apply hleft.operand
      exact fun w hw => hgood w (by simp [JoinClause.words, htype, hw])
    · apply hright.operand
      exact fun w hw => hgood w (by simp [JoinClause.words, htype, hw])
  cases type with
  | joinCross => exact .cross hname
  | joinRight =>
    obtain ⟨hleft, hright⟩ := hparts (by decide)
    exact .on hname (show JoinType.joinRight ≠ .joinCross by decide) hright hleft
  | joinInner =>
    obtain ⟨hleft, hright⟩ := hparts (by decide)
    exact .on hname (show JoinType.joinInner ≠ .joinCross by decide) hleft hright
  | joinLeft =>
    obtain ⟨hleft, hright⟩ := hparts (by decide)
    exact .on hname (show JoinType.joinLeft ≠ .joinCross by decide) hleft hright

theorem chain_steps_ok {columns : List Bytes} {joins : List JoinClause} (h : ChainOk columns joins)
    (hgood : ∀ w ∈ joins.flatMap JoinClause.words, ∃ o, Good (w.token o)) :
    ∀ j ∈ joins.map JoinClause.step, j.Ok := by
  induction joins generalizing columns with
  | nil => exact List.forall_mem_nil _
  | cons j joins ih =>
    rw [List.flatMap_cons] at hgood
    rw [List.map_cons]
    refine List.forall_mem_cons.mpr ⟨?_, ?_⟩
    · exact JoinClause.step_ok h.1 (fun w hw => hgood w (List.mem_append_left _ hw))
    · exact ih h.2 (fun w hw => hgood w (List.mem_append_right _ hw))

/-- The parser makes the chain of joins of its words. -/
theorem parse_chain {base : Source} {joins : List JoinClause} (h : ChainOk base.columns joins)
    {sql : Bytes} {ts : List Token} {o o' : Nat}
    (hlex : lex sql =
      .ok (ts ++ [(Word.symbol .semicolon).token o, (Word.symbol .endOfInput).token o']))
    (hts : List.Forall₂ Word.Spells (chainWords base joins) ts) :
    parse sql = .ok (.select (chainStatement base joins)) := by
  have hgood : ∀ w ∈ chainWords base joins, ∃ o, Good (w.token o) := by
    intro w hw
    obtain ⟨t, ht, offset, rfl⟩ := Parser.forall₂_mem hts hw
    exact ⟨offset, lex_good hlex _ (List.mem_append_left _ ht)⟩
  have hname : Identifier base.name := name_good (hgood _ (by simp [chainWords]))
  have hsteps := chain_steps_ok h (fun w hw => hgood w (by simp [chainWords] at hw ⊢; simp [hw]))
  have hwell : WellFormed (.select (chainStatement base joins)) :=
    ⟨⟨(JoinChain.table hname).joined hsteps, List.forall_mem_nil _, given_none,
      given_none, given_none,
      List.forall_mem_nil _, given_none, given_none⟩, trivial⟩
  apply parse_spelled hwell hlex
  rw [statementWords_chain]
  exact hts

def JoinClause.node (node : Node) (j : JoinClause) : Node :=
  match j.type with
  | .joinRight => .nestedLoopJoin (.scan j.source.name) node j.predicate true
  | .joinLeft => .nestedLoopJoin node (.scan j.source.name) j.predicate true
  | .joinCross | .joinInner => .nestedLoopJoin node (.scan j.source.name) j.predicate false

/-- The planner makes one join node after the other. -/
theorem buildFromItem_joined {item : FromItem} {node : Node} (h : buildFromItem item = .ok node)
    (joins : List JoinClause) :
    buildFromItem (joined item (joins.map JoinClause.step)) =
    .ok (joins.foldl JoinClause.node node) := by
  induction joins generalizing item node with
  | nil => exact h
  | cons j joins ih =>
    apply ih
    obtain ⟨type, source, left, right⟩ := j
    unfold buildFromItem
    cases type <;> rw [h] <;> rfl

/-- The planner nests the joins from left to right. -/
theorem plan_chain {base : Source} {joins : List JoinClause} {sql : Bytes}
    (h : parse sql = .ok (.select (chainStatement base joins))) :
    Session.plan sql = .ok (joins.foldl JoinClause.node (.scan base.name)) := by
  have hbase : buildFromItem (.table base.name) = .ok (.scan base.name) := rfl
  have hitem : buildFromItem (chainStatement base joins).fromItem = _ :=
    buildFromItem_joined hbase joins
  unfold Session.plan
  rw [h]
  change (buildSelect (chainStatement base joins)).wrap _ _ = _
  unfold buildSelect
  rw [hitem]
  rfl

end SpaceDB.Proofs
