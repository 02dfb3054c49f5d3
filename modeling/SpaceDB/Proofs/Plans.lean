import SpaceDB.Proofs.Ordinary

namespace SpaceDB.Proofs
open Lib Storage Sql

inductive AggregateItem (groupBy : Option Expression) : SelectItem → Prop where
  | call {item : SelectItem} (call : FunctionCall)
      (expression : item.expression = ⟨.functionExpression, .functionCall call⟩) :
      AggregateItem groupBy item
  | column {item : SelectItem} (name : Bytes) (grouped : groupBy.isSome = true)
      (expression : item.expression = ⟨.columnReference, .string name⟩) :
      AggregateItem groupBy item

def GroupColumn (e : Expression) : Prop := ∃ name, e = ⟨.columnReference, .string name⟩

/-- The query plans that the planner makes of well-formed statements. -/
def Planned : Node → Prop
  | .scan _ => True
  | .filter source predicate => Planned source ∧ Comparison predicate
  | .order source _ => Planned source
  | .limit source limit => Planned source ∧ 0 ≤ limit.val
  | .offset source offset => Planned source ∧ 0 ≤ offset.val
  | .projection source items => Planned source ∧ ∀ item ∈ items, Operand item.expression
  | .aggregate source items groupBy =>
    Planned source ∧ (∀ item ∈ items, AggregateItem groupBy item) ∧ Given GroupColumn groupBy
  | .nestedLoopJoin left right predicate _ =>
    Planned left ∧ Planned right ∧ Given Comparison predicate
  | _ => False

def RowSource (tableName : Bytes) (source : Node) : Prop :=
  ∃ predicate, source = filtered (.scan tableName) predicate ∧ Given Comparison predicate

def PlannedStatement : Node → Prop
  | .createTable schema =>
    Identifier schema.name ∧ ∀ column ∈ schema.columns, Given Plain column.default
  | .insert tableName _ values => Identifier tableName ∧ ∀ row ∈ values, ∀ e ∈ row, Operand e
  | .update tableName source assignments =>
    Identifier tableName ∧ RowSource tableName source ∧
      ∀ assignment ∈ assignments.entries, Operand assignment.2
  | .delete tableName source => Identifier tableName ∧ RowSource tableName source
  | node => Planned node

theorem Planned.statement {node : Node} (h : Planned node) : PlannedStatement node := by
  cases node <;> first | exact h | exact h.elim

section Results
variable {α β : Type}

/-- A successful sequence has a successful first part. -/
theorem outcome_bind_ok {r : Outcome α} {f : α → Outcome β} {b : β} (h : (r >>= f) = .ok b) :
    ∃ a, r = .ok a ∧ f a = .ok b := by
  cases r with
  | ok a => exact ⟨a, rfl, h⟩
  | error e => cases h

theorem outcome_map_ok {r : Outcome α} {f : α → β} {b : β} (h : f <$> r = .ok b) :
    ∃ a, r = .ok a ∧ f a = b := by
  cases r with
  | ok a => exact ⟨a, rfl, Except.ok.inj h⟩
  | error e => cases h

theorem outcome_wrap_ok {r : Outcome α} {a : α} {format : String} {args : List Arg}
    (h : r.wrap format args = .ok a) : r = .ok a := by
  cases r with
  | ok b => exact congrArg _ (Except.ok.inj h)
  | error e => cases h

theorem mapM_forall₂ {f : α → Outcome β} {l : List α} {bs : List β} (h : l.mapM f = .ok bs) :
    List.Forall₂ (fun a b => f a = .ok b) l bs := by
  induction l generalizing bs with
  | nil =>
    cases h
    exact .nil
  | cons a l ih =>
    rw [List.mapM_cons] at h
    obtain ⟨b, hb, h⟩ := outcome_bind_ok h
    obtain ⟨rest, hrest, h⟩ := outcome_bind_ok h
    cases h
    exact .cons hb (ih hrest)

theorem mem_of_mapM_ok {f : α → Outcome β} {l : List α} {bs : List β} (h : l.mapM f = .ok bs)
    {b : β} (hb : b ∈ bs) : ∃ a ∈ l, f a = .ok b := by
  obtain ⟨i, hi, rfl⟩ := List.getElem_of_mem hb
  have hforall := mapM_forall₂ h
  have hlength := hforall.length_eq
  exact ⟨l[i], List.getElem_mem _, hforall.get (by omega) hi⟩

theorem mapM_ok_mem {f : α → Outcome β} {l : List α} {bs : List β} (h : l.mapM f = .ok bs)
    {a : α} (ha : a ∈ l) : ∃ b ∈ bs, f a = .ok b := by
  obtain ⟨i, hi, rfl⟩ := List.getElem_of_mem ha
  have hforall := mapM_forall₂ h
  have hlength := hforall.length_eq
  exact ⟨bs[i], List.getElem_mem _, hforall.get hi (by omega)⟩

end Results

theorem planned_filtered {node : Node} {o : Option Expression} (h : Planned node)
    (ho : Given Comparison o) : Planned (filtered node o) := by
  cases o with
  | none => exact h
  | some e => exact ⟨h, ho e rfl⟩

/-- A FROM clause becomes scans and joins. -/
theorem planned_from {item : FromItem} {node : Node} (hitem : JoinChain item)
    (h : buildFromItem item = .ok node) : Planned node := by
  -- whichever input comes first, both are planned
  have hjoin : ∀ {left right : FromItem} {type : JoinType} {predicate : Option Expression}
      {node : Node}, (∀ {n}, buildFromItem left = .ok n → Planned n) →
      (∀ {n}, buildFromItem right = .ok n → Planned n) → Given Comparison predicate →
      buildFromItem (.join left right type predicate) = .ok node → Planned node := by
    intro left right type predicate node hleft hright hpredicate h
    obtain ⟨_, -, h⟩ := outcome_bind_ok h
    split_ifs at h
    · obtain ⟨first, hfirst, h⟩ := outcome_bind_ok h
      obtain ⟨second, hsecond, h⟩ := outcome_bind_ok h
      cases h
      exact ⟨hright (outcome_wrap_ok hfirst), hleft (outcome_wrap_ok hsecond), hpredicate⟩
    · obtain ⟨first, hfirst, h⟩ := outcome_bind_ok h
      obtain ⟨second, hsecond, h⟩ := outcome_bind_ok h
      cases h
      exact ⟨hleft (outcome_wrap_ok hfirst), hright (outcome_wrap_ok hsecond), hpredicate⟩
  have htable : ∀ {name : Bytes} {n : Node}, buildFromItem (.table name) = .ok n → Planned n := by
    intro name n h
    cases h
    exact trivial
  induction hitem generalizing node with
  | table hname => exact htable h
  | cross hchain hname ih => exact hjoin ih htable given_none h
  | on hchain hname htype hleft hright ih =>
    exact hjoin ih htable (given_some (.mk _ hleft hright)) h

theorem groupByColumn_ok {o : Option Expression} {column : Option Bytes} (ho : Given Operand o)
    (h : groupByColumnOf o = .ok column) :
    Given GroupColumn o ∧ column.isSome = o.isSome := by
  cases o with
  | none =>
    cases h
    exact ⟨given_none, rfl⟩
  | some e =>
    unfold groupByColumnOf at h
    simp only at h
    split_ifs at h with hkind
    · cases h
    · obtain ⟨name, -, rfl⟩ := outcome_map_ok h
      refine ⟨given_some ?_, rfl⟩
      cases ho e rfl with
      | @column name hname => exact ⟨name, rfl⟩
      | _ => exact absurd (by simp [nullExpression]) hkind

def isCall (item : SelectItem) : Prop :=
  ∃ call, item.expression = ⟨.functionExpression, .functionCall call⟩

/-- An item is a call, or it is counted as something else, which with a
grouping is a column. -/
def Counted (column : Option Bytes) (kinds : ItemKinds) (item : SelectItem) : Prop :=
  isCall item ∨ kinds.hasNonAggregate = true ∧
    (column.isSome = true → ∃ name, item.expression = ⟨.columnReference, .string name⟩)

/-- What an item of a SELECT counts as. -/
theorem checkItem_counted {column : Option Bytes} {i : Nat} {kinds kinds' : ItemKinds}
    {item : SelectItem} (hitem : Operand item.expression)
    (h : checkItem column i kinds item = .ok kinds') :
    (kinds.hasNonAggregate = true → kinds'.hasNonAggregate = true) ∧
      Counted column kinds' item := by
  obtain ⟨e, aliasName⟩ := item
  have hliteral : e.kind ≠ .functionExpression → e.kind ≠ .columnReference →
      checkItem column i kinds ⟨e, aliasName⟩ =
        if column.isSome then
          fault "planner: SELECT item %d must be the GROUP BY column or an aggregate function"
            [.number (i + 1)]
        else .ok { kinds with hasNonAggregate := true } := by
    intro hcall hcolumn
    unfold checkItem
    split
    next hk => exact absurd hk hcall
    next hk => exact absurd hk hcolumn
    · rfl
  cases hitem with
  | @function call hname hargument =>
    cases h
    exact ⟨id, .inl ⟨call, rfl⟩⟩
  | @column name hname =>
    cases column with
    | none =>
      cases h
      exact ⟨fun _ => rfl, .inr ⟨rfl, by simp⟩⟩
    | some group =>
      obtain ⟨columnName, -, h⟩ := outcome_bind_ok h
      split_ifs at h
      · cases h
      · cases h
        exact ⟨fun _ => rfl, .inr ⟨rfl, fun _ => ⟨name, rfl⟩⟩⟩
  | _ =>
    rw [hliteral ExpressionKind.noConfusion ExpressionKind.noConfusion] at h
    split_ifs at h with hgroup
    · cases h
    · cases h
      exact ⟨fun _ => rfl, .inr ⟨rfl, fun hg => absurd hg hgroup⟩⟩

theorem Counted.mono {column : Option Bytes} {kinds kinds' : ItemKinds} {item : SelectItem}
    (h : Counted column kinds item)
    (hk : kinds.hasNonAggregate = true → kinds'.hasNonAggregate = true) :
    Counted column kinds' item := h.imp id (fun hn => ⟨hk hn.1, hn.2⟩)

theorem checkItems_counted {column : Option Bytes} {i : Nat} {kinds kinds' : ItemKinds}
    {items : List SelectItem} (hitems : ∀ item ∈ items, SelectItemOk item)
    (h : checkItems column i kinds items = .ok kinds') :
    (kinds.hasNonAggregate = true → kinds'.hasNonAggregate = true) ∧
      ∀ item ∈ items, Counted column kinds' item := by
  induction items generalizing i kinds with
  | nil =>
    cases h
    exact ⟨id, by simp⟩
  | cons item items ih =>
    obtain ⟨hitem, hrest⟩ := List.forall_mem_cons.mp hitems
    obtain ⟨mid, hmid, h⟩ := outcome_bind_ok h
    obtain ⟨hfirst, hcounted⟩ := checkItem_counted hitem.expression hmid
    obtain ⟨hlast, hall⟩ := ih hrest h
    exact ⟨fun hk => hlast (hfirst hk), List.forall_mem_cons.mpr ⟨hcounted.mono hlast, hall⟩⟩

theorem count_nonneg {clause : String} {e : Expression} {i : Sql.Int64}
    (h : countFromExpression clause e = .ok i) : 0 ≤ i.val := by
  obtain ⟨v, -, h⟩ := outcome_bind_ok h
  split at h
  · split_ifs at h with hneg
    · cases h
    · cases h
      exact not_lt.mp hneg
  · cases h

theorem planned_ordered {node : Node} (h : Planned node) (orderBy : List OrderBy) :
    Planned (ordered node orderBy) := by
  unfold ordered
  split_ifs
  · exact h
  · exact h

theorem planned_counted {clause : String} {make : Node → Sql.Int64 → Node} {node node' : Node}
    {o : Option Expression} (h : Planned node)
    (hmake : ∀ i : Sql.Int64, 0 ≤ i.val → Planned (make node i))
    (hcounted : counted clause make node o = .ok node') : Planned node' := by
  cases o with
  | none =>
    cases hcounted
    exact h
  | some e =>
    obtain ⟨i, hi, rfl⟩ := outcome_map_ok hcounted
    exact hmake i (count_nonneg hi)

/-- The planner puts the nodes of a SELECT on top of each other as the clauses stand. -/
theorem planned_select {s : SelectStatement} {node : Node} (hs : SelectOk s)
    (h : buildSelect s = .ok node) : Planned node := by
  obtain ⟨source, hsource, h⟩ := outcome_bind_ok h
  obtain ⟨column, hcolumn, h⟩ := outcome_bind_ok h
  obtain ⟨kinds, hkinds, h⟩ := outcome_bind_ok h
  obtain ⟨hgroup, hsome⟩ := groupByColumn_ok hs.groupBy hcolumn
  obtain ⟨-, hcounted⟩ := checkItems_counted hs.items hkinds
  have hwhere := planned_filtered (planned_from hs.chain (outcome_wrap_ok hsource)) hs.whereClause
  split_ifs at h with hmixed
  · cases h
  · -- each clause keeps the plan below it
    have haggregate : Planned (if kinds.hasAggregate || s.groupBy.isSome then
        .aggregate (filtered source s.whereClause) s.selectItems s.groupBy
        else filtered source s.whereClause) := by
      split_ifs with hquery
      · refine ⟨hwhere, ?_, hgroup⟩
        intro item hitem
        rcases hcounted item hitem with ⟨call, hcall⟩ | ⟨hother, hcolumn⟩
        · exact .call call hcall
        · have hgrouped : s.groupBy.isSome = true := by
            cases hg : s.groupBy with
            | some e => rfl
            | none => simp [hg, hother] at hquery hmixed; simp [hquery] at hmixed
          obtain ⟨name, hname⟩ := hcolumn (hsome.trans hgrouped)
          exact .column name hgrouped hname
      · exact hwhere
    have horder := planned_ordered (planned_filtered haggregate hs.having) s.orderBy
    obtain ⟨offset, hoffset, h⟩ := outcome_bind_ok h
    obtain ⟨limit, hlimit, h⟩ := outcome_bind_ok h
    have hoffset : Planned offset := by
      apply planned_counted horder _ hoffset
      exact fun i hi => ⟨horder, hi⟩
    have hlimit : Planned limit := by
      apply planned_counted hoffset _ hlimit
      exact fun i hi => ⟨hoffset, hi⟩
    cases h
    split_ifs
    · exact ⟨hlimit, fun item hitem => (hs.items item hitem).expression⟩
    · exact hlimit

/-- A default is the value of a literal. -/
theorem default_plain {c : ColumnDef} {column : Column} (hc : ColumnOk c)
    (h : columnFromDef c = .ok column) : Given Plain column.default := by
  obtain ⟨default, hdefault, h⟩ := outcome_bind_ok h
  cases h
  unfold defaultFromDef at hdefault
  cases hd : c.defaultValue with
  | none =>
    rw [hd] at hdefault
    cases hdefault
    intro v hv
    dsimp only at hv
    split_ifs at hv
    cases hv
    exact trivial
  | some e =>
    rw [hd] at hdefault
    obtain ⟨v, hv, rfl⟩ := outcome_map_ok hdefault
    have hplain := ordinary_value (hc.default e hd)
    rw [outcome_wrap_ok hv] at hplain
    exact given_some hplain

/-- Every plan that the planner makes of a well-formed statement is planned. -/
theorem planned_build {s : Statement} {node : Node} (hs : WellFormed s) (h : build s = .ok node) :
    PlannedStatement node := by
  obtain ⟨hs, -⟩ := hs
  cases s with
  | createTable s =>
    obtain ⟨table, htable, h⟩ := outcome_bind_ok h
    cases h
    obtain ⟨columns, hcolumns, htable⟩ := outcome_bind_ok (outcome_wrap_ok htable)
    cases htable
    refine ⟨hs.1, ?_⟩
    intro column hcolumn
    obtain ⟨c, hc, hdef⟩ := mem_of_mapM_ok hcolumns hcolumn
    exact default_plain (hs.2 c hc) hdef
  | insert s =>
    cases h
    exact ⟨hs.1, fun row hrow => (hs.2.2.2 row hrow).2⟩
  | select s => exact (planned_select hs h).statement
  | update s =>
    obtain ⟨hname, -, hassignments, hfilter⟩ := hs
    cases h
    exact ⟨hname, ⟨_, rfl, hfilter⟩, fun a ha => (hassignments a ha).2⟩
  | delete s =>
    cases h
    exact ⟨hs.1, _, rfl, hs.2⟩

end SpaceDB.Proofs
