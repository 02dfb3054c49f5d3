import SpaceDB.Proofs.NoPanics
import SpaceDB.Proofs.StatementSnapshots

namespace SpaceDB.Proofs
open Lib Storage Sql Engine

variable {setting : Setting} {w : World}

theorem defaultFromDef_ordinary {c : ColumnDef} (hc : ColumnOk c) (nullable : Bool) :
    Ordinary (fun _ => True) (defaultFromDef c nullable) := by
  unfold defaultFromDef
  cases hd : c.defaultValue with
  | none => exact trivial
  | some e => exact (ordinary_value (hc.default e hd)).wrap.map fun _ _ => trivial

theorem tableFromCreateStatement_ordinary {s : CreateTableStatement}
    (hs : ∀ c ∈ s.columns, ColumnOk c) : Ordinary (fun _ => True) (tableFromCreateStatement s) := by
  have hcolumns : ∀ c ∈ s.columns, Ordinary (fun _ => True) (columnFromDef c) := fun c hc =>
    (defaultFromDef_ordinary (hs c hc) _).bind fun _ _ => trivial
  exact (ordinary_mapM hcolumns).bind fun _ _ => trivial

theorem validateJoinItem_ordinary (type : JoinType) (predicate : Option Expression) :
    Ordinary (fun _ => True) (validateJoinItem type predicate) := by
  cases type <;> cases predicate <;> exact trivial

theorem buildFromItem_ordinary (item : FromItem) :
    Ordinary (fun _ => True) (buildFromItem item) := by
  induction item with
  | table name => exact trivial
  | join left right type predicate ihl ihr =>
    refine (validateJoinItem_ordinary type predicate).bind (fun _ _ => ?_)
    split_ifs
    · exact ihr.wrap.bind fun _ _ => ihl.wrap.bind fun _ _ => trivial
    · exact ihl.wrap.bind fun _ _ => ihr.wrap.bind fun _ _ => trivial

theorem groupByColumnOf_ordinary {o : Option Expression} (ho : Given Operand o) :
    Ordinary (fun _ => True) (groupByColumnOf o) := by
  cases o with
  | none => exact trivial
  | some e =>
    cases ho e rfl with
    | column hname => exact trivial
    | _ => exact ordinary_fault _ _

theorem checkItem_ordinary {column : Option Bytes} {i : Nat} {kinds : ItemKinds} {item : SelectItem}
    (hitem : Operand item.expression) :
    Ordinary (fun _ => True) (checkItem column i kinds item) := by
  obtain ⟨e, aliasName⟩ := item
  cases hitem with
  | function hname hargument => exact trivial
  | @column name hname =>
    cases column with
    | none => exact trivial
    | some group =>
      change Ordinary _ (if name ≠ group then _ else _)
      split_ifs
      · exact ordinary_fault _ _
      · exact trivial
  | _ =>
    cases column with
    | none => exact trivial
    | some group => exact ordinary_fault _ _

theorem checkItems_ordinary {column : Option Bytes} {i : Nat} {kinds : ItemKinds}
    {items : List SelectItem} (hitems : ∀ item ∈ items, SelectItemOk item) :
    Ordinary (fun _ => True) (checkItems column i kinds items) := by
  induction items generalizing i kinds with
  | nil => exact trivial
  | cons item items ih =>
    obtain ⟨hitem, hrest⟩ := List.forall_mem_cons.mp hitems
    exact (checkItem_ordinary hitem.expression).bind fun _ _ => ih hrest

theorem countFromExpression_ordinary {clause : String} {e : Expression} (he : Operand e) :
    Ordinary (fun _ => True) (countFromExpression clause e) := by
  refine (ordinary_value he).wrap.bind (fun v _ => ?_)
  cases v with
  | integer i =>
    change Ordinary _ (if i.val < 0 then _ else _)
    split_ifs
    · exact ordinary_fault _ _
    · exact trivial
  | _ => exact ordinary_fault _ _

theorem counted_ordinary {clause : String} {make : Node → Sql.Int64 → Node} {node : Node}
    {o : Option Expression} (ho : Given Operand o) :
    Ordinary (fun _ => True) (counted clause make node o) := by
  cases o with
  | none => exact trivial
  | some e => exact (countFromExpression_ordinary (ho e rfl)).map fun _ _ => trivial

/-- The planner does not panic on a SELECT. -/
theorem buildSelect_ordinary {s : SelectStatement} (hs : SelectOk s) :
    Ordinary (fun _ => True) (buildSelect s) := by
  refine (buildFromItem_ordinary s.fromItem).wrap.bind (fun source _ => ?_)
  refine (groupByColumnOf_ordinary hs.groupBy).bind (fun column _ => ?_)
  refine (checkItems_ordinary hs.items).bind (fun kinds _ => ?_)
  split_ifs
  · exact ordinary_fault _ _
  · refine (counted_ordinary hs.offset).bind (fun offset _ => ?_)
    exact (counted_ordinary hs.limit).bind fun limit _ => trivial

theorem build_ordinary {s : Statement} (hs : WellFormed s) :
    Ordinary (fun _ => True) (build s) := by
  obtain ⟨hs, -⟩ := hs
  cases s with
  | createTable s => exact (tableFromCreateStatement_ordinary hs.2).wrap.bind fun _ _ => trivial
  | select s => exact buildSelect_ordinary hs
  | insert s | update s | delete s => exact trivial

/-- From the text to the plan nothing panics. -/
theorem plan_ordinary (sql : Bytes) : Ordinary (fun _ => True) (Session.plan sql) :=
  (parse_ordinary sql).wrap.bind fun _ hs => (build_ordinary hs).wrap

def TextPanic (sql : Bytes) (message : String) : Prop :=
  ∃ node, Session.plan sql = .ok node ∧ JoinPanic node message

/-- Whatever the MVCC answers, a text ends with a result, an error or the panic of a join.
-/
theorem text_concludes (codec : Codec) {walk : Walk} (hwalk : ∀ l, (walk l).Perm l) (sql : Bytes) :
    (Session.execute codec walk sql).wp (Rule.anything MvccCall MvccRet)
      (fun r _ => Concludes (TextPanic sql) (fun _ => True) r) () := by
  cases hplan : Session.plan sql with
  | error f =>
    have hordinary := plan_ordinary sql
    rw [hplan] at hordinary
    unfold Session.execute
    rw [hplan]
    cases f with
    | error e => exact trivial
    | panic message => exact hordinary.elim
  | ok node =>
    apply Prog.wp_mono Prog.anything_monotone _ (session_concludes codec hwalk hplan)
    intro r _ hr
    exact (hr.mono fun _ _ => trivial).panics fun message hm => ⟨node, hplan, hm⟩

/-- However a statement has ended, it is with a result, an error or the panic of
a join. -/
theorem reaches_concludes (h : setting.Reaches w) {j : Nat} {e : Execution} {r : Outcome ResultSet}
    (he : w.executions j = some e) (hr : e.result = some r) :
    Concludes (TextPanic e.sql) (fun _ => True) r := by
  have hrest :=
    execution_wp (fun i => text_concludes setting.codec (setting.walks.perm i) e.sql) h he rfl
  rw [result_rest hr] at hrest
  cases r <;> exact hrest

end SpaceDB.Proofs
