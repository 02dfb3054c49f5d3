import SpaceDB.Sql.Executor

namespace SpaceDB.Proofs
open Lib Storage Sql

variable {σ : Type} {h : Handler TxnCall TxnRet σ} {walk : Walk} {s s' : σ}

@[simp] theorem run_txn (c : TxnCall) (s : σ) : (txn c).run h s = h c s := by
  change (Prog.ofExcept (h c s).1).run h (h c s).2 = h c s
  rw [Prog.run_ofExcept]

theorem run_wrap {α : Type} (p : ExecM α) (format : String) (args : List Arg) (s : σ) :
    (p.wrap format args).run h s = (Outcome.wrap format args (p.run h s).1, (p.run h s).2) :=
  Prog.run_mapError h _ p s

theorem run_wrap_ok {α : Type} {p : ExecM α} {a : α} (hp : p.run h s = (.ok a, s'))
    (format : String) (args : List Arg) : (p.wrap format args).run h s = (.ok a, s') := by
  rw [run_wrap, hp]
  rfl

theorem run_wrap_error {α : Type} {p : ExecM α} {f : Fault} (hp : p.run h s = (.error f, s'))
    (format : String) (args : List Arg) :
    (p.wrap format args).run h s = (.error (f.wrap format args), s') := by
  rw [run_wrap, hp]
  rfl

theorem loadTable_run {name : Bytes} {table : Table}
    (hget : h (.getTable name) s = (.ok (some table), s')) :
    (loadTable name).run h s = (.ok table, s') := by
  have hcall := run_wrap_ok (p := txn (.getTable name)) ((run_txn _ s).trans hget)
    "executor: loading table %q: %w" [.bytes name]
  exact (Prog.run_bind_ok h hcall _).trans rfl

/-- A scan returns the rows of the table under its column names. -/
theorem scanNode_run {name : Bytes} {table : Table} {rows : List Row} {s₁ : σ}
    (hget : h (.getTable name) s = (.ok (some table), s₁))
    (hscan : h (.scanTable table) s₁ = (.ok rows, s')) :
    (execute walk (.scan name)).run h s =
    (.ok (.rows (table.columns.map Column.name) rows), s') := by
  have hrows := run_wrap_ok (p := txn (.scanTable table)) ((run_txn _ s₁).trans hscan)
    "executor: scanning table %q: %w" [.bytes name]
  exact (Prog.run_bind_ok h (loadTable_run hget) _).trans ((Prog.run_bind_ok h hrows _).trans rfl)

theorem run_returns {α β : Type} (r : Outcome α) (f : α → β) (s : σ) :
    ((Prog.ofExcept r : ExecM α).bind fun a => .done (f a)).run h s = (r.map f, s) := by
  cases r <;> rfl

section Sources
variable {source : Node} {columns : List Bytes} {rows : List Row}

theorem source_run (hsource : (execute walk source).run h s = (.ok (.rows columns rows), s'))
    (format : String) (args : List Arg) (next : List Bytes × List Row → ExecM ResultSet) :
    (((execute walk source).wrap format args).bind fun result =>
      (Prog.ofExcept result.toRows).bind next).run h s = (next (columns, rows)).run h s' :=
  Prog.run_bind_ok h (run_wrap_ok hsource format args) _

/-- A source that fails ends the executor above it. -/
theorem source_error {f : Fault} (hsource : (execute walk source).run h s = (.error f, s'))
    (format : String) (args : List Arg) (next : List Bytes × List Row → ExecM ResultSet) :
    (((execute walk source).wrap format args).bind fun result =>
      (Prog.ofExcept result.toRows).bind next).run h s = (.error (f.wrap format args), s') :=
  Prog.run_bind_error h (run_wrap_error hsource format args) _

variable (hsource : (execute walk source).run h s = (.ok (.rows columns rows), s'))
include hsource

theorem filterNode_run (predicate : Expression) :
    (execute walk (.filter source predicate)).run h s =
    ((filterRows predicate columns 0 rows).map (.rows columns), s') := by
  exact (source_run hsource _ _ _).trans (run_returns _ _ _)

theorem orderNode_run (orderBy : List OrderBy) : (execute walk (.order source orderBy)).run h s =
    ((orderRows orderBy columns rows).map (.rows columns), s') := by
  exact (source_run hsource _ _ _).trans (run_returns _ _ _)

theorem projectionNode_run (items : List SelectItem) :
    (execute walk (.projection source items)).run h s =
    ((projectRows items columns rows).map (fun r => .rows r.1 r.2), s') := by
  exact (source_run hsource _ _ _).trans (run_returns _ _ _)

theorem aggregateNode_run (items : List SelectItem) (groupBy : Option Expression) :
    (execute walk (.aggregate source items groupBy)).run h s =
      ((aggregateRows items groupBy columns rows).map (fun r => .rows r.1 r.2), s') := by
  exact (source_run hsource _ _ _).trans (run_returns _ _ _)

end Sources

section Joins
variable {left right : Node} {leftColumns rightColumns : List Bytes} {leftRows rightRows : List Row}
  {s₁ : σ}

/-- A join reads its left input first. -/
theorem joinNode_run (hleft : (execute walk left).run h s = (.ok (.rows leftColumns leftRows), s₁))
    (hright : (execute walk right).run h s₁ = (.ok (.rows rightColumns rightRows), s'))
    (predicate : Option Expression) (outer : Bool) :
    (execute walk (.nestedLoopJoin left right predicate outer)).run h s =
      ((joinRows predicate outer leftColumns rightColumns rightRows leftRows).map
        (.rows (leftColumns ++ rightColumns)), s') := by
  exact (source_run hleft _ _ _).trans ((source_run hright _ _ _).trans (run_returns _ _ _))

theorem joinNode_left {f : Fault} (hleft : (execute walk left).run h s = (.error f, s'))
    (right : Node) (predicate : Option Expression) (outer : Bool) :
    (execute walk (.nestedLoopJoin left right predicate outer)).run h s =
      (.error (f.wrap "executor: executing left join input: %w" []), s') := by
  exact source_error hleft _ _ _

theorem joinNode_right {f : Fault}
    (hleft : (execute walk left).run h s = (.ok (.rows leftColumns leftRows), s₁))
    (hright : (execute walk right).run h s₁ = (.error f, s')) (predicate : Option Expression)
    (outer : Bool) : (execute walk (.nestedLoopJoin left right predicate outer)).run h s =
      (.error (f.wrap "executor: executing right join input: %w" []), s') := by
  exact (source_run hleft _ _ _).trans (source_error hright _ _ _)

end Joins

/-- A transaction that can only read: the table of a name, and the rows of a table. -/
def readOnly (tableOf : Bytes → Option Table) (rowsOf : Table → List Row) :
    Handler TxnCall TxnRet Unit
  | .getTable name, s => (.ok (tableOf name), s)
  | .scanTable table, s => (.ok (rowsOf table), s)
  | .createTable _, s => (fault "read only" [], s)
  | .createRow _ _, s => (fault "read only" [], s)
  | .updateRow _ _ _, s => (fault "read only" [], s)
  | .deleteRow _ _, s => (fault "read only" [], s)

abbrev fixedRows (table : Table) (rows : List Row) : Handler TxnCall TxnRet Unit :=
  readOnly (fun _ => some table) (fun _ => rows)

end SpaceDB.Proofs
