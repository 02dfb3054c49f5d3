import SpaceDB.Lib.Relation
import SpaceDB.Proofs.Comparisons
import SpaceDB.Proofs.ExecutorRuns
import SpaceDB.Proofs.JoinClauses
import SpaceDB.Proofs.Queries

namespace SpaceDB.Proofs
open Lib Storage Sql Engine

abbrev RowMap := Tuple Bytes Value

def onValue (t : RowMap) (e : Expression) : Value :=
  match e.kind, e.value with
  | .booleanLiteral, .bool b => .boolean b
  | .integerLiteral, .int64 i => .integer i
  | .floatLiteral, .float64 f => .float f
  | .stringLiteral, .string s => .string s
  | .columnReference, .string name => (t name).getD .null
  | _, _ => .null

def Comparable (a b : Value) : Prop := a = .null ∨ b = .null ∨ ∃ c, a.compare b = .ok c

/-- The equality of two values is TRUE, and neither FALSE nor NULL. -/
def isTrue (a b : Value) : Bool := decide (a ≠ .null ∧ b ≠ .null ∧ a.compare b = .ok 0)

def Source.maps (s : Source) : Multiset RowMap := s.rows.map (Tuple.ofRow s.columns)

def JoinClause.holds (j : JoinClause) (a b : RowMap) : Bool :=
  match j.type with
  | .joinCross => true
  | _ => isTrue (onValue a j.left) (onValue b j.right)

def JoinClause.reference (j : JoinClause) (columns : List Bytes) (rows : Multiset RowMap) :
    Multiset RowMap :=
  let pairs := Relation.inner j.holds Tuple.merge rows j.source.maps
  match j.type with
  | .joinCross | .joinInner => pairs
  | .joinLeft => pairs + (Relation.unmatched j.holds rows j.source.maps).map
      (fun a => a.merge (Tuple.filled j.source.columns .null))
  | .joinRight => pairs + (Relation.unmatched (fun b a => j.holds a b) j.source.maps rows).map
      (fun b => (Tuple.filled columns .null).merge b)

def referenceJoin : List Bytes → Multiset RowMap → List JoinClause → Multiset RowMap
  | _, rows, [] => rows
  | columns, rows, j :: joins =>
    referenceJoin (columns ++ j.source.columns) (j.reference columns rows) joins

def ComparableChain : List Bytes → Multiset RowMap → List JoinClause → Prop
  | _, _, [] => True
  | columns, rows, j :: joins =>
    (j.type ≠ .joinCross → ∀ a ∈ rows, ∀ b ∈ j.source.maps,
      Comparable (onValue a j.left) (onValue b j.right)) ∧
    ComparableChain (columns ++ j.source.columns) (j.reference columns rows) joins

/-- At every join `make` takes the product of the row counts. -/
def ChainFits : List Bytes → Multiset RowMap → List JoinClause → Prop
  | _, _, [] => True
  | columns, rows, j :: joins =>
    CapacityFits (rows.card * j.source.rows.length) ∧
    ChainFits (columns ++ j.source.columns) (j.reference columns rows) joins

theorem Comparable.symm {a b : Value} (h : Comparable a b) : Comparable b a := by
  rcases h with h | h | ⟨c, h⟩
  · exact .inr (.inl h)
  · exact .inl h
  · exact .inr (.inr ⟨-c, compare_swap h⟩)

theorem isTrue_comm (a b : Value) : isTrue a b = isTrue b a := by
  have hhalf : ∀ {a b : Value}, isTrue a b = true → isTrue b a = true := by
    intro a b h
    obtain ⟨ha, hb, hcompare⟩ := of_decide_eq_true h
    exact decide_eq_true ⟨hb, ha, compare_swap hcompare⟩
  exact Bool.eq_iff_iff.mpr ⟨hhalf, hhalf⟩

/-- An operand of an ON clause has the value that the row map gives it. -/
theorem evaluate_onValue {columns rightColumns : List Bytes} {row rightRow : Row} {e : Expression}
    (h : JoinOperand columns e) (hrow : row.length = columns.length) :
    evaluateExpression e columns row rightColumns rightRow =
      .ok (onValue (Tuple.ofRow columns row) e) := by
  cases h with
  | @column name hknown =>
    obtain ⟨i, hi⟩ := Option.isSome_iff_exists.mp (List.isSome_idxOf?.mpr hknown)
    have hlt : i < row.length := hrow ▸ index_idxOf hi
    have hcolumn : columnIndexOf columns name = some i := hi
    rw [evaluate_found hcolumn]
    simp [onValue, Tuple.ofRow, hi, index, hlt]
  | _ => rfl

/-- The predicate holds when the equality of its operands is TRUE. -/
theorem isMatch_on {leftColumns rightColumns : List Bytes} {a b : Row} {left right : Expression}
    (hleft : JoinOperand leftColumns left) (hright : JoinOperand rightColumns right)
    (ha : a.length = leftColumns.length) (hb : b.length = rightColumns.length)
    (hcomparable : Comparable (onValue (Tuple.ofRow leftColumns a) left)
      (onValue (Tuple.ofRow rightColumns b) right)) :
    isMatch (some (.operation .operationEqual left right)) leftColumns a rightColumns b =
      .ok (isTrue (onValue (Tuple.ofRow leftColumns a) left)
        (onValue (Tuple.ofRow rightColumns b) right)) := by
  have heval : evaluateExpression
      (.operation .operationEqual left right) leftColumns a rightColumns b =
      evaluateComparison .operationEqual (onValue (Tuple.ofRow leftColumns a) left)
        (onValue (Tuple.ofRow rightColumns b) right) := by
    change (do
      let leftValue ← (evaluateExpression left leftColumns a rightColumns b).wrap _ _
      let rightValue ← (evaluateExpression right rightColumns b leftColumns a).wrap _ _
      evaluateComparison .operationEqual leftValue rightValue) = _
    rw [evaluate_onValue hleft ha, evaluate_onValue hright hb]
    rfl
  unfold isMatch isTrue
  simp only [heval]
  generalize onValue (Tuple.ofRow leftColumns a) left = x at *
  generalize onValue (Tuple.ofRow rightColumns b) right = y at *
  unfold evaluateComparison
  by_cases hnull : x = .null ∨ y = .null
  · have hfalse : ¬ (x ≠ .null ∧ y ≠ .null ∧ x.compare y = .ok 0) := fun h => hnull.elim h.1 h.2.1
    rw [if_pos hnull, decide_eq_false hfalse]
    rfl
  · obtain ⟨hx, hy⟩ := not_or.mp hnull
    obtain ⟨c, hc⟩ := (hcomparable.resolve_left hx).resolve_left hy
    rw [if_neg hnull, hc]
    by_cases hzero : c = 0
    · simp [hx, hy, hzero, Outcome.wrap, Except.mapError, bind, Except.bind, pure, Except.pure]
    · simp [hzero, Outcome.wrap, Except.mapError, bind, Except.bind, pure, Except.pure]

section Loops
variable {predicate : Option Expression} {leftColumns rightColumns : List Bytes}
  {holds : Row → Row → Bool} {leftRows rightRows : List Row}

theorem matchRows_eq {a : Row}
    (h : ∀ b ∈ rightRows, isMatch predicate leftColumns a rightColumns b = .ok (holds a b)) :
    matchRows predicate leftColumns a rightColumns rightRows =
      .ok ((rightRows.filter (holds a)).map (a ++ ·)) := by
  induction rightRows with
  | nil => rfl
  | cons b rows ih =>
    obtain ⟨hb, hrows⟩ := List.forall_mem_cons.mp h
    unfold matchRows
    rw [hb, ih hrows]
    cases hholds : holds a b with
    | true => simp [hholds, bind, Except.bind, pure, Except.pure]
    | false => simp [hholds, bind, Except.bind, pure, Except.pure]

def loopRows (outer : Bool) (holds : Row → Row → Bool) (width : Nat)
    (rightRows leftRows : List Row) :
    List Row :=
  leftRows.flatMap fun a =>
    if (outer && (rightRows.filter (holds a)).isEmpty) = true then [a ++ List.replicate width .null]
    else (rightRows.filter (holds a)).map (a ++ ·)

/-- The loops of a join whose predicate does not fail. -/
theorem joinLoop_eq (outer : Bool) (h : ∀ a ∈ leftRows, ∀ b ∈ rightRows,
      isMatch predicate leftColumns a rightColumns b = .ok (holds a b)) :
    joinLoop predicate outer leftColumns rightColumns rightRows leftRows =
      .ok (loopRows outer holds rightColumns.length rightRows leftRows) := by
  induction leftRows with
  | nil => rfl
  | cons a rows ih =>
    obtain ⟨ha, hrows⟩ := List.forall_mem_cons.mp h
    unfold joinLoop
    rw [matchRows_eq ha, ih hrows]
    simp only [bind, Except.bind, pure, Except.pure, List.isEmpty_map, loopRows, List.flatMap_cons]

theorem loopRows_wide (outer : Bool) (hleft : Wide leftColumns leftRows)
    (hright : Wide rightColumns rightRows) :
    Wide (leftColumns ++ rightColumns)
      (loopRows outer holds rightColumns.length rightRows leftRows) := by
  intro row hrow
  obtain ⟨a, ha, hrow⟩ := List.mem_flatMap.mp hrow
  split_ifs at hrow
  · rw [List.mem_singleton.mp hrow, List.length_append, List.length_append, hleft a ha,
      List.length_replicate]
  · obtain ⟨b, hb, rfl⟩ := List.mem_map.mp hrow
    rw [List.length_append, List.length_append, hleft a ha, hright b (List.mem_filter.mp hb).1]

/-- The rows of a join as maps, when its predicate looks at the maps only. -/
theorem loopRows_maps (on : RowMap → RowMap → Bool)
    (hon : ∀ a b, holds a b = on (Tuple.ofRow leftColumns a) (Tuple.ofRow rightColumns b))
    (hleft : Wide leftColumns leftRows) (outer : Bool) :
    (((loopRows outer holds rightColumns.length rightRows leftRows).map
        (Tuple.ofRow (leftColumns ++ rightColumns)) : List RowMap) : Multiset RowMap) =
      Relation.inner on Tuple.merge (leftRows.map (Tuple.ofRow leftColumns) : List RowMap)
          (rightRows.map (Tuple.ofRow rightColumns) : List RowMap) +
        if outer then (Relation.unmatched on (leftRows.map (Tuple.ofRow leftColumns) : List RowMap)
            (rightRows.map (Tuple.ofRow rightColumns) : List RowMap)).map
          (fun a => a.merge (Tuple.filled rightColumns .null)) else 0 := by
  let pair : Row → Row → RowMap := fun a b => Tuple.ofRow (leftColumns ++ rightColumns) (a ++ b)
  let pad : Row → RowMap := fun a => pair a (List.replicate rightColumns.length .null)
  have hmerge : ∀ a ∈ leftRows, ∀ b,
      pair a b = (Tuple.ofRow leftColumns a).merge (Tuple.ofRow rightColumns b) :=
    fun a ha b => Tuple.ofRow_append (hleft a ha)
  have hinner : Relation.inner holds pair leftRows rightRows =
      Relation.inner on Tuple.merge (leftRows.map (Tuple.ofRow leftColumns) : List RowMap)
        (rightRows.map (Tuple.ofRow rightColumns) : List RowMap) := by
    rw [← Multiset.map_coe, ← Multiset.map_coe, Relation.inner_map]
    exact Relation.inner_congr (fun a _ b _ => hon a b) (fun a ha b _ => hmerge a ha b)
  have hunmatched : (Relation.unmatched holds leftRows rightRows).map pad =
      (Relation.unmatched on (leftRows.map (Tuple.ofRow leftColumns) : List RowMap)
        (rightRows.map (Tuple.ofRow rightColumns) : List RowMap)).map
          (fun a => a.merge (Tuple.filled rightColumns .null)) := by
    rw [← Multiset.map_coe, ← Multiset.map_coe, Relation.unmatched_map, Multiset.map_map,
      Relation.unmatched_congr (fun a _ b _ => hon a b)]
    apply Multiset.map_congr rfl
    intro a ha
    rw [Function.comp_apply, ← Tuple.ofRow_replicate]
    exact hmerge a (Multiset.mem_of_mem_filter ha) _
  unfold loopRows
  rw [List.map_flatMap]
  cases outer with
  | false =>
    simp only [Bool.false_and, Bool.false_eq_true, if_false, List.map_map, add_zero]
    rw [← hinner]
    exact Relation.inner_loop holds pair leftRows rightRows
  | true =>
    simp only [Bool.true_and, if_true]
    rw [← hinner, ← hunmatched, ← Relation.outer_loop holds pair pad leftRows rightRows]
    congr 2
    funext a
    split_ifs
    · rfl
    · rw [List.map_map]
      rfl

end Loops

section Chains
variable {σ : Type} {h : Handler TxnCall TxnRet σ} {I : σ → Prop} {walk : Walk}

structure HasSource (h : Handler TxnCall TxnRet σ) (I : σ → Prop) (source : Source) : Prop where
  table : ∀ s, I s → (h (.getTable source.name) s).1 = .ok (some source.table) ∧
    I (h (.getTable source.name) s).2
  rows : ∀ s, I s → (h (.scanTable source.table) s).1 = .ok source.rows ∧
    I (h (.scanTable source.table) s).2
  wide : Wide source.columns source.rows

def Gives (h : Handler TxnCall TxnRet σ) (I : σ → Prop) (walk : Walk) (node : Node)
    (columns : List Bytes) (rows : List Row) : Prop :=
  ∀ s, I s → ∃ s', I s' ∧ (Sql.execute walk node).run h s = (.ok (.rows columns rows), s')

theorem HasSource.gives {source : Source} (hs : HasSource h I source) :
    Gives h I walk (.scan source.name) source.columns source.rows := by
  intro s hI
  obtain ⟨htable, hI₁⟩ := hs.table s hI
  obtain ⟨hrows, hI₂⟩ := hs.rows _ hI₁
  exact ⟨_, hI₂, scanNode_run (Prod.ext htable rfl) (Prod.ext hrows rfl)⟩

def Exceeds (h : Handler TxnCall TxnRet σ) (I : σ → Prop) (walk : Walk) (node : Node) : Prop :=
  ∀ s, I s → ∃ s', (Sql.execute walk node).run h s = (.error (.panic capOutOfRange), s')

section JoinNodes
variable {left right : Node} {leftColumns rightColumns : List Bytes} {leftRows rightRows : List Row}

/-- A join of two inputs, when `make` takes the product of their row counts. -/
theorem Gives.join {rows : List Row} {predicate : Option Expression} {outer : Bool}
    (hleft : Gives h I walk left leftColumns leftRows)
    (hright : Gives h I walk right rightColumns rightRows)
    (hfits : CapacityFits (leftRows.length * rightRows.length))
    (hjoin : joinLoop predicate outer leftColumns rightColumns rightRows leftRows = .ok rows) :
    Gives h I walk (.nestedLoopJoin left right predicate outer)
      (leftColumns ++ rightColumns) rows := by
  intro s hI
  obtain ⟨s₁, hI₁, hrun₁⟩ := hleft s hI
  obtain ⟨s₂, hI₂, hrun₂⟩ := hright s₁ hI₁
  refine ⟨s₂, hI₂, ?_⟩
  rw [joinNode_run hrun₁ hrun₂, joinRows_capacity, if_pos hfits, hjoin]
  rfl

/-- The same when it does not. -/
theorem Gives.exceeds (hleft : Gives h I walk left leftColumns leftRows)
    (hright : Gives h I walk right rightColumns rightRows)
    (hfits : ¬ CapacityFits (leftRows.length * rightRows.length)) (predicate : Option Expression)
    (outer : Bool) : Exceeds h I walk (.nestedLoopJoin left right predicate outer) := by
  intro s hI
  obtain ⟨s₁, hI₁, hrun₁⟩ := hleft s hI
  obtain ⟨s₂, -, hrun₂⟩ := hright s₁ hI₁
  refine ⟨s₂, ?_⟩
  rw [joinNode_run hrun₁ hrun₂, joinRows_capacity, if_neg hfits]
  rfl

theorem Exceeds.ofLeft (hleft : Exceeds h I walk left) (right : Node)
    (predicate : Option Expression)
    (outer : Bool) : Exceeds h I walk (.nestedLoopJoin left right predicate outer) := by
  intro s hI
  obtain ⟨s₁, hrun⟩ := hleft s hI
  exact ⟨s₁, joinNode_left hrun right predicate outer⟩

theorem Exceeds.ofRight (hright : Exceeds h I walk right)
    (hleft : Gives h I walk left leftColumns leftRows) (predicate : Option Expression)
    (outer : Bool) : Exceeds h I walk (.nestedLoopJoin left right predicate outer) := by
  intro s hI
  obtain ⟨s₁, hI₁, hrun₁⟩ := hleft s hI
  obtain ⟨s₂, hrun₂⟩ := hright s₁ hI₁
  exact ⟨s₂, joinNode_right hrun₁ hrun₂ predicate outer⟩

end JoinNodes

/-- What has been joined so far: the plan, and the rows as the reference has
them. The columns may stand in another order. -/
structure Joined (h : Handler TxnCall TxnRet σ) (I : σ → Prop) (walk : Walk) (node : Node)
    (columns : List Bytes) (maps : Multiset RowMap) (actual : List Bytes) (rows : List Row) :
    Prop where
  gives : Gives h I walk node actual rows
  perm : actual.Perm columns
  wide : Wide actual rows
  maps : ((rows.map (Tuple.ofRow actual) : List RowMap) : Multiset RowMap) = maps

variable {node : Node} {columns : List Bytes} {maps : Multiset RowMap} {j : JoinClause}

theorem Joined.card {actual : List Bytes} {rows : List Row}
    (h : Joined h I walk node columns maps actual rows) : maps.card = rows.length := by
  rw [← h.maps, Multiset.coe_card, List.length_map]

theorem JoinOperand.perm {e : Expression} {columns' : List Bytes} (he : JoinOperand columns e)
    (hperm : columns.Perm columns') : JoinOperand columns' e := by
  cases he with
  | null => exact .null
  | boolean b => exact .boolean b
  | integer i => exact .integer i
  | float f => exact .float f
  | string s => exact .string s
  | column hknown => exact .column (hperm.subset hknown)

section Step
variable {actual : List Bytes} {rows : List Row}
    (hjoined : Joined h I walk node columns maps actual rows)
  (hsource : HasSource h I j.source)
  (hoperands : j.type ≠ .joinCross →
    JoinOperand columns j.left ∧ JoinOperand j.source.columns j.right)
  (hcomparable : j.type ≠ .joinCross → ∀ a ∈ maps, ∀ b ∈ j.source.maps,
    Comparable (onValue a j.left) (onValue b j.right))
include hjoined hsource hoperands hcomparable

/-- The condition of a pair of rows is that of the text, on whichever side the
planner has put them. -/
theorem Joined.isMatch {a b : Row} (ha : a ∈ rows) (hb : b ∈ j.source.rows) :
    (j.type ≠ .joinRight → Sql.isMatch j.predicate actual a j.source.columns b =
      .ok (j.holds (Tuple.ofRow actual a) (Tuple.ofRow j.source.columns b))) ∧
    (j.type = .joinRight → Sql.isMatch j.predicate j.source.columns b actual a =
      .ok (j.holds (Tuple.ofRow actual a) (Tuple.ofRow j.source.columns b))) := by
  have hwidth := hjoined.wide a ha
  have hwidth' := hsource.wide b hb
  have hmem : Tuple.ofRow actual a ∈ maps := by
    rw [← hjoined.maps]
    exact List.mem_map_of_mem ha
  have hmem' : Tuple.ofRow j.source.columns b ∈ j.source.maps := List.mem_map_of_mem hb
  have hon : j.type ≠ .joinCross → JoinOperand actual j.left ∧
      JoinOperand j.source.columns j.right ∧
      Comparable (onValue (Tuple.ofRow actual a) j.left)
        (onValue (Tuple.ofRow j.source.columns b) j.right) := by
    intro htype
    obtain ⟨hleft, hright⟩ := hoperands htype
    exact ⟨hleft.perm hjoined.perm.symm, hright, hcomparable htype _ hmem _ hmem'⟩
  clear hoperands hcomparable
  obtain ⟨type, source, left, right⟩ := j
  cases type with
  | joinCross => exact ⟨fun _ => rfl, fun h => nomatch h⟩
  | joinInner | joinLeft =>
    obtain ⟨hleft, hright, hcompare⟩ := hon (by simp)
    exact ⟨fun _ => isMatch_on hleft hright hwidth hwidth' hcompare, fun h => nomatch h⟩
  | joinRight =>
    obtain ⟨hleft, hright, hcompare⟩ := hon (by simp)
    refine ⟨fun h => absurd rfl h, fun _ => ?_⟩
    refine (isMatch_on hright hleft hwidth' hwidth hcompare.symm).trans ?_
    rw [isTrue_comm]
    rfl

/-- A join with the accumulated rows on the left. -/
theorem Joined.onLeft (hfits : CapacityFits (maps.card * j.source.rows.length))
    (htype : j.type ≠ .joinRight) (outer : Bool) :
    ∃ rows', Joined h I walk (.nestedLoopJoin node (.scan j.source.name) j.predicate outer)
      (columns ++ j.source.columns)
      (Relation.inner j.holds Tuple.merge maps j.source.maps +
        if outer then (Relation.unmatched j.holds maps j.source.maps).map
          (fun a => a.merge (Tuple.filled j.source.columns .null)) else 0)
      (actual ++ j.source.columns) rows' := by
  have hmatch := fun a ha b hb =>
    (hjoined.isMatch hsource hoperands hcomparable (a := a) (b := b) ha hb).1 htype
  rw [hjoined.card] at hfits
  refine ⟨_, hjoined.gives.join hsource.gives hfits (joinLoop_eq outer hmatch),
    hjoined.perm.append_right _, loopRows_wide outer hjoined.wide hsource.wide, ?_⟩
  rw [loopRows_maps j.holds (fun _ _ => rfl) hjoined.wide, hjoined.maps]
  rfl

/-- A RIGHT JOIN, which has them on the right. -/
theorem Joined.onRight (hfits : CapacityFits (maps.card * j.source.rows.length))
    (htype : j.type = .joinRight) (hnodup : (columns ++ j.source.columns).Nodup) :
    ∃ rows', Joined h I walk (.nestedLoopJoin (.scan j.source.name) node j.predicate true)
      (columns ++ j.source.columns)
      (Relation.inner j.holds Tuple.merge maps j.source.maps +
        (Relation.unmatched (fun b a => j.holds a b) j.source.maps maps).map
          (fun b => (Tuple.filled columns .null).merge b))
      (j.source.columns ++ actual) rows' := by
  have hmatch := fun b hb a ha =>
    (hjoined.isMatch hsource hoperands hcomparable (a := a) (b := b) ha hb).2 htype
  rw [hjoined.card, mul_comm] at hfits
  refine ⟨_, hsource.gives.join hjoined.gives hfits (joinLoop_eq true hmatch),
    List.perm_append_comm.trans (hjoined.perm.append_right _),
    loopRows_wide true hsource.wide hjoined.wide, ?_⟩
  rw [loopRows_maps (fun b a => j.holds a b) (fun _ _ => rfl) hsource.wide,
    hjoined.maps, if_pos rfl]
  -- the maps of the two sides have no column in common, so they can be merged either way
  have hapart : ∀ c, c ∉ columns ∨ c ∉ j.source.columns := by
    intro c
    by_cases hc : c ∈ columns
    · exact .inr (fun hc' => List.disjoint_of_nodup_append hnodup hc hc')
    · exact .inl hc
  have hnew : ∀ b ∈ j.source.maps, ∀ c, c ∉ j.source.columns → b c = none := by
    intro b hb c hc
    obtain ⟨row, -, rfl⟩ := List.mem_map.mp (Multiset.mem_coe.mp hb)
    exact Tuple.ofRow_eq_none hc row
  have hold : ∀ a ∈ maps, ∀ c, c ∉ columns → a c = none := by
    intro a ha c hc
    rw [← hjoined.maps] at ha
    obtain ⟨row, -, rfl⟩ := List.mem_map.mp (Multiset.mem_coe.mp ha)
    exact Tuple.ofRow_eq_none (fun hin => hc (hjoined.perm.subset hin)) row
  have hpairs : Relation.inner (fun b a => j.holds a b) Tuple.merge j.source.maps maps =
      Relation.inner j.holds Tuple.merge maps j.source.maps := by
    rw [← Relation.inner_swap j.holds]
    apply Relation.inner_congr (fun _ _ _ _ => rfl)
    intro b hb a ha
    apply Tuple.merge_comm
    intro c
    rcases hapart c with hc | hc
    · exact .inr (hold a ha c hc)
    · exact .inl (hnew b hb c hc)
  refine congrArg₂ (· + ·) hpairs ?_
  apply Multiset.map_congr rfl
  intro b hb
  rw [Tuple.filled_congr (fun c => hjoined.perm.mem_iff)]
  apply Tuple.merge_comm
  intro c
  rcases hapart c with hc | hc
  · exact .inr (if_neg (by simpa using hc))
  · exact .inl (hnew b (Multiset.mem_of_mem_filter hb) c hc)

/-- One more join. -/
theorem Joined.next (hfits : CapacityFits (maps.card * j.source.rows.length))
    (hnodup : (columns ++ j.source.columns).Nodup) :
    ∃ actual' rows', Joined h I walk (j.node node) (columns ++ j.source.columns)
      (j.reference columns maps) actual' rows' := by
  have hleft := hjoined.onLeft hsource hoperands hcomparable hfits
  have hright := hjoined.onRight hsource hoperands hcomparable hfits
  unfold JoinClause.node JoinClause.reference
  cases htype : j.type with
  | joinCross | joinInner =>
    obtain ⟨rows', hnext⟩ := hleft (by simp [htype]) false
    rw [if_neg Bool.false_ne_true, add_zero] at hnext
    exact ⟨_, rows', hnext⟩
  | joinLeft =>
    obtain ⟨rows', hnext⟩ := hleft (by simp [htype]) true
    exact ⟨_, rows', hnext⟩
  | joinRight =>
    obtain ⟨rows', hnext⟩ := hright htype hnodup
    exact ⟨_, rows', hnext⟩

end Step

/-- The join that has one row too many for `make`. -/
theorem Joined.exceeds {actual : List Bytes} {rows : List Row}
    (hjoined : Joined h I walk node columns maps actual rows) (hsource : HasSource h I j.source)
    (hfits : ¬ CapacityFits (maps.card * j.source.rows.length)) :
    Exceeds h I walk (j.node node) := by
  rw [hjoined.card] at hfits
  unfold JoinClause.node
  cases j.type with
  | joinRight =>
    rw [mul_comm] at hfits
    exact hsource.gives.exceeds hjoined.gives hfits _ _
  | _ => exact hjoined.gives.exceeds hsource.gives hfits _ _

/-- After that no further join is reached. -/
theorem Exceeds.chain {joins : List JoinClause} (hexceeds : Exceeds h I walk node)
    (hsources : ∀ j ∈ joins, HasSource h I j.source) :
    Exceeds h I walk (joins.foldl JoinClause.node node) := by
  induction joins generalizing node with
  | nil => exact hexceeds
  | cons j joins ih =>
    obtain ⟨hsource, hsources⟩ := List.forall_mem_cons.mp hsources
    refine ih ?_ hsources
    unfold JoinClause.node
    cases j.type with
    | joinRight => exact hexceeds.ofRight hsource.gives _ _
    | _ => exact hexceeds.ofLeft _ _ _

/-- A whole chain: it fits and has the rows of the reference, or some join exceeds. -/
theorem Joined.chain {joins : List JoinClause} {actual : List Bytes} {rows : List Row}
    (hjoined : Joined h I walk node columns maps actual rows)
    (hsources : ∀ j ∈ joins, HasSource h I j.source) (hchain : ChainOk columns joins)
    (hcomparable : ComparableChain columns maps joins)
    (hnodup : (columns ++ joins.flatMap (fun j => j.source.columns)).Nodup) :
    (ChainFits columns maps joins → ∃ actual' rows',
      Joined h I walk (joins.foldl JoinClause.node node)
      (columns ++ joins.flatMap (fun j => j.source.columns)) (referenceJoin columns maps joins)
      actual' rows') ∧
    (¬ ChainFits columns maps joins → Exceeds h I walk (joins.foldl JoinClause.node node)) := by
  induction joins generalizing node columns maps actual rows with
  | nil =>
    rw [List.flatMap_nil, List.append_nil]
    exact ⟨fun _ => ⟨actual, rows, hjoined⟩, fun hfits => absurd trivial hfits⟩
  | cons j joins ih =>
    obtain ⟨hsource, hsources⟩ := List.forall_mem_cons.mp hsources
    rw [List.flatMap_cons, ← List.append_assoc] at hnodup ⊢
    by_cases hfits : CapacityFits (maps.card * j.source.rows.length)
    · obtain ⟨actual', rows', hnext⟩ := hjoined.next hsource hchain.1 hcomparable.1 hfits
        (List.Nodup.of_append_left hnodup)
      obtain ⟨hrest, hexceeds⟩ := ih hnext hsources hchain.2 hcomparable.2 hnodup
      exact ⟨fun hall => hrest hall.2, fun hall => hexceeds fun htail => hall ⟨hfits, htail⟩⟩
    · exact ⟨fun hall => absurd hall.1 hfits,
        fun _ => (hjoined.exceeds hsource hfits).chain hsources⟩

/-- SELECT * over a chain of joins returns the rows of the joins from left to
right, unless `make` does not take the product of the row counts at one of them. -/
theorem join_chain {base : Source} {joins : List JoinClause} {s : σ} (hs : I s)
    (hbase : HasSource h I base) (hsources : ∀ j ∈ joins, HasSource h I j.source)
    (hnodup : (base.columns ++ joins.flatMap (fun j => j.source.columns)).Nodup)
    (hchain : ChainOk base.columns joins)
    (hcomparable : ComparableChain base.columns base.maps joins)
    {sql : Bytes} {ts : List Token} {o o' : Nat}
    (hlex : lex sql =
      .ok (ts ++ [(Word.symbol .semicolon).token o, (Word.symbol .endOfInput).token o']))
    (hts : List.Forall₂ Word.Spells (chainWords base joins) ts) (walk : Walk) :
    ∃ node, Session.plan sql = .ok node ∧
      (ChainFits base.columns base.maps joins → ∃ columns rows s',
        (Sql.execute walk node).run h s = (.ok (.rows columns rows), s') ∧
        columns.Perm (base.columns ++ joins.flatMap (fun j => j.source.columns)) ∧
        Wide columns rows ∧
        ((rows.map (Tuple.ofRow columns) : List RowMap) : Multiset RowMap) =
          referenceJoin base.columns base.maps joins) ∧
      (¬ ChainFits base.columns base.maps joins → ∃ s',
        (Sql.execute walk node).run h s = (.error (.panic capOutOfRange), s')) := by
  have hplan := plan_chain (parse_chain hchain hlex hts)
  have hstart : Joined h I walk (.scan base.name) base.columns base.maps base.columns base.rows :=
    ⟨hbase.gives, List.Perm.refl _, hbase.wide, rfl⟩
  obtain ⟨hrows, hexceeds⟩ := hstart.chain hsources hchain hcomparable hnodup
  refine ⟨_, hplan, fun hfits => ?_, fun hfits => hexceeds hfits s hs⟩
  obtain ⟨columns, rows, hjoined⟩ := hrows hfits
  obtain ⟨s', -, hrun⟩ := hjoined.gives s hs
  exact ⟨columns, rows, s', hrun, hjoined.perm, hjoined.wide, hjoined.maps⟩

end Chains

def sourcesOnly (sources : List Source) : Handler TxnCall TxnRet Unit :=
  readOnly (fun name => (sources.find? (fun source => source.name = name)).map Source.table)
    (fun table => ((sources.find? (fun source => source.table = table)).map Source.rows).getD [])

def integerColumn (name : String) : Column := ⟨ascii name, .integer, true, none, false⟩

def sourceT : Source :=
  ⟨ascii "t", ⟨ascii "t", [integerColumn "a"]⟩, [[.integer (.wrap 1)], [.null]]⟩

def sourceU : Source :=
  ⟨ascii "u", ⟨ascii "u", [integerColumn "b"]⟩, [[.integer (.wrap 1)]]⟩

def sourceV : Source :=
  ⟨ascii "v", ⟨ascii "v", [integerColumn "c"]⟩, [[.integer (.wrap 2)], [.integer (.wrap 3)]]⟩

def joinsUV : List JoinClause :=
  [⟨.joinLeft, sourceU, ⟨.columnReference, .string (ascii "a")⟩,
    ⟨.columnReference, .string (ascii "b")⟩⟩,
    ⟨.joinRight, sourceV, ⟨.integerLiteral, .int64 (.wrap 2)⟩,
      ⟨.columnReference, .string (ascii "c")⟩⟩]

theorem spells_zipWith {ws : List Word} {os : List Nat} (h : ws.length ≤ os.length) :
    List.Forall₂ Word.Spells ws (ws.zipWith (fun w o => w.token o) os) := by
  induction ws generalizing os with
  | nil => exact .nil
  | cons w ws ih =>
    obtain ⟨o, os, rfl⟩ := List.exists_cons_of_length_pos (Nat.lt_of_lt_of_le (Nat.succ_pos _) h)
    exact .cons ⟨o, rfl⟩ (ih (Nat.le_of_succ_le_succ h))

theorem join_chain_left_right : ∃ node columns rows,
    Session.plan (ascii "SELECT * FROM t LEFT JOIN u ON a = b RIGHT JOIN v ON 2 = c;") = .ok node ∧
      (Sql.execute id node).run (sourcesOnly [sourceT, sourceU, sourceV]) () =
        (.ok (.rows columns rows), ()) ∧
      columns.Perm [ascii "a", ascii "b", ascii "c"] ∧ Wide columns rows ∧
      ((rows.map (Tuple.ofRow columns) : List RowMap) : Multiset RowMap) =
        referenceJoin sourceT.columns sourceT.maps joinsUV := by
  have hholds : ∀ source ∈ [sourceT, sourceU, sourceV],
      HasSource (sourcesOnly [sourceT, sourceU, sourceV]) (fun _ => True) source := by
    intro source hsource
    simp only [List.mem_cons, List.not_mem_nil, or_false] at hsource
    rcases hsource with rfl | rfl | rfl
    · exact ⟨fun _ _ => ⟨rfl, trivial⟩, fun _ _ => ⟨rfl, trivial⟩,
        by simp [Wide, sourceT, Source.columns]⟩
    · exact ⟨fun _ _ => ⟨rfl, trivial⟩, fun _ _ => ⟨rfl, trivial⟩,
        by simp [Wide, sourceU, Source.columns]⟩
    · exact ⟨fun _ _ => ⟨rfl, trivial⟩, fun _ _ => ⟨rfl, trivial⟩,
        by simp [Wide, sourceV, Source.columns]⟩
  have hchain : ChainOk sourceT.columns joinsUV :=
    ⟨fun _ => ⟨.column (by decide), .column (by decide)⟩,
      fun _ => ⟨.integer _, .column (by decide)⟩, trivial⟩
  have hcomparable : ComparableChain sourceT.columns sourceT.maps joinsUV := by
    refine ⟨fun _ a ha b hb => ?_, fun _ a _ b hb => ?_, trivial⟩
    · obtain ⟨row, hrow, rfl⟩ := List.mem_map.mp (Multiset.mem_coe.mp ha)
      obtain ⟨row', hrow', rfl⟩ := List.mem_map.mp (Multiset.mem_coe.mp hb)
      rw [List.mem_singleton.mp hrow']
      rcases List.mem_cons.mp hrow with rfl | hrow
      · exact .inr (.inr ⟨_, rfl⟩)
      · rw [List.mem_singleton.mp hrow]
        exact .inl rfl
    · obtain ⟨row, hrow, rfl⟩ := List.mem_map.mp (Multiset.mem_coe.mp hb)
      rcases List.mem_cons.mp hrow with rfl | hrow
      · exact .inr (.inr ⟨_, rfl⟩)
      · rw [List.mem_singleton.mp hrow]
        exact .inr (.inr ⟨_, rfl⟩)
  have hlex : lex (ascii "SELECT * FROM t LEFT JOIN u ON a = b RIGHT JOIN v ON 2 = c;") =
      .ok ((chainWords sourceT joinsUV).zipWith (fun w o => w.token o)
          [0, 7, 9, 14, 16, 21, 26, 28, 31, 33, 35, 37, 43, 48, 50, 53, 55, 57] ++
        [(Word.symbol .semicolon).token 58, (Word.symbol .endOfInput).token 59]) := by
    decide +kernel
  have hfits : ChainFits sourceT.columns sourceT.maps joinsUV :=
    ⟨by decide +kernel, by decide +kernel, trivial⟩
  obtain ⟨node, hplan, hrows, -⟩ := join_chain (s := ()) trivial
    (hholds sourceT (by simp)) (by simp [joinsUV, hholds]) (by decide) hchain hcomparable hlex
    (spells_zipWith (by decide)) id
  obtain ⟨columns, rows, s', hrun, hperm, hwide, hmaps⟩ := hrows hfits
  exact ⟨node, columns, rows, hplan, hrun, hperm, hwide, hmaps⟩

end SpaceDB.Proofs
