import SpaceDB.Proofs.Relations
import SpaceDB.Proofs.NoPanics
import SpaceDB.Proofs.SerialRuns
import SpaceDB.Proofs.StatementSnapshots

namespace SpaceDB.Proofs
open Lib Storage Sql Engine

variable {codec : Codec} {T : Bytes → Option Table} {m : Contents} {d : Relations} {walk : Walk}
  {table : Table} {α : Type}

def RepresentsOn (codec : Codec) (T : Bytes → Option Table) (m : Contents) (d : Relations) : Prop :=
  Represents codec m d ∧ schemas d = T

/-- A program runs on the map as on the relations, and leaves the tables as they
are. -/
def Alike (codec : Codec) (T : Bytes → Option Table) (p : ExecM α) (Q : α → Prop) : Prop :=
  p.Coupled (tables codec) (Relations.call codec) (RepresentsOn codec T) Q

def Known (T : Bytes → Option Table) (table : Table) : Prop :=
  table.name ≠ [] ∧ T table.name = some table

theorem Known.find (h : Known T table) (hd : schemas d = T) :
    ∃ r, d.find table.name = some r ∧ r.table = table := by
  have hfind := h.2
  rw [← hd, schemas] at hfind
  exact Option.map_eq_some_iff.mp hfind

section Calls

theorem alike_txn {c : TxnCall} {Q : c.Val → Prop}
    (hc : ∀ m d, RepresentsOn codec T m d → (tables codec c m).1 = (Relations.call codec c d).1 ∧
      ∀ a, (tables codec c m).1 = .ok a →
        Q a ∧ RepresentsOn codec T (tables codec c m).2 (Relations.call codec c d).2) :
    Alike codec T (txn c) Q := by
  intro m d hr
  rw [run_txn, run_txn]
  exact hc m d hr

theorem alike_getTable (name : Bytes) :
    Alike codec T (txn (.getTable name)) fun found =>
      ∀ table, found = some table → Known T table := by
  refine alike_txn fun m d hr => ?_
  have hcall : Relations.call codec (.getTable name) d = (d.getTable name, d) := rfl
  rw [hr.1.getTable, hcall]
  refine ⟨rfl, fun found hfound => ⟨fun table htable => ?_, hr⟩⟩
  subst htable
  unfold Relations.getTable at hfound
  split_ifs at hfound with hname
  · cases hfound
  · obtain ⟨r, hr', rfl⟩ := Option.map_eq_some_iff.mp (Except.ok.inj hfound)
    rw [Known, d.named hr', ← hr.2, schemas, hr']
    exact ⟨hname, rfl⟩

theorem alike_scanTable (h : Known T table) :
    Alike codec T (txn (.scanTable table)) fun _ => True := by
  refine alike_txn fun m d hr => ?_
  obtain ⟨r, hd, rfl⟩ := h.find hr.2
  have hcall : Relations.call codec (.scanTable r.table) d = (d.scanTable r.table, d) := rfl
  rw [hr.1.scanTable hd h.1, hcall]
  exact ⟨rfl, fun _ _ => ⟨trivial, hr⟩⟩

theorem Agreeing.alike {a : Outcome Unit × Contents} {b : Outcome Unit × Relations}
    (h : Agreeing codec a b T) :
    a.1 = b.1 ∧ ∀ u, a.1 = .ok u → True ∧ RepresentsOn codec T a.2 b.2 :=
  ⟨h.1, fun u hu => ⟨trivial, h.2 u hu⟩⟩

theorem alike_createRow (hc : Faithful codec) (name : Bytes) (row : Row) :
    Alike codec T (txn (.createRow name row)) fun _ => True := by
  refine alike_txn fun m d hr => ?_
  obtain ⟨hrepresents, rfl⟩ := hr
  exact (hrepresents.createRow hc name row).alike

theorem alike_updateRow (hc : Faithful codec) (h : Known T table) (old : Value) (row : Row) :
    Alike codec T (txn (.updateRow table old row)) fun _ => True := by
  refine alike_txn fun m d hr => ?_
  obtain ⟨r, hd, rfl⟩ := h.find hr.2
  obtain ⟨hrepresents, rfl⟩ := hr
  exact (hrepresents.updateRow hc hd h.1 old row).alike

theorem alike_deleteRow (h : Known T table) (pk : Value) :
    Alike codec T (txn (.deleteRow table pk)) fun _ => True := by
  refine alike_txn fun m d hr => ?_
  obtain ⟨r, hd, rfl⟩ := h.find hr.2
  obtain ⟨hrepresents, rfl⟩ := hr
  exact (hrepresents.deleteRow hd h.1 pk).alike

end Calls

section Loops

theorem alike_bind {β : Type} {p : ExecM α} {f : α → ExecM β} {P : α → Prop} {Q : β → Prop}
    (hp : Alike codec T p P) (hf : ∀ a, P a → Alike codec T (f a) Q) : Alike codec T (p >>= f) Q :=
  Prog.Coupled.bind hp hf

theorem alike_wrap {p : ExecM α} {Q : α → Prop} (hp : Alike codec T p Q) (format : String)
    (args : List Arg) : Alike codec T (p.wrap format args) Q := Prog.Coupled.mapError hp

/-- What is computed from the rows so far is the same at both levels. -/
theorem alike_compute {β : Type} (r : Outcome α) {f : α → ExecM β} {Q : β → Prop}
    (hf : ∀ a, Alike codec T (f a) Q) : Alike codec T (Prog.ofExcept r >>= f) Q :=
  alike_bind (Prog.coupled_ofExcept r) fun a _ => hf a

theorem alike_return (a : α) : Alike codec T (pure a) fun _ => True := Prog.coupled_done trivial

theorem alike_loadTable (name : Bytes) : Alike codec T (loadTable name) (Known T) := by
  refine alike_bind (alike_wrap (alike_getTable name) _ _) fun found hfound => ?_
  cases found with
  | none => exact fun _ _ _ => ⟨rfl, fun _ ha => by cases ha⟩
  | some table => exact Prog.coupled_done (hfound table rfl)

theorem alike_insertRows (hc : Faithful codec) (name : Bytes) (table : Table) (columns : List Bytes)
    (values : List (List Expression)) (i : Nat) :
    Alike codec T (insertRows name table columns i values) fun _ => True := by
  induction values generalizing i with
  | nil => exact alike_return i
  | cons es values ih =>
    refine alike_compute _ fun row => alike_compute _ fun fullRow => ?_
    exact alike_bind (alike_wrap (alike_createRow hc name fullRow) _ _) fun _ _ => ih (i + 1)

theorem alike_updateRows (hc : Faithful codec) (h : Known T table)
    (assignments : List (Nat × Value))
    (rows : List Row) (i : Nat) :
    Alike codec T (updateRows table assignments i rows) fun _ => True := by
  induction rows generalizing i with
  | nil => exact alike_return i
  | cons row rows ih =>
    refine alike_compute _ fun old => alike_compute _ fun updated => ?_
    exact alike_bind (alike_wrap (alike_updateRow hc h old updated) _ _) fun _ _ => ih (i + 1)

theorem alike_deleteRows (h : Known T table) (rows : List Row) (i : Nat) :
    Alike codec T (deleteRows table i rows) fun _ => True := by
  induction rows generalizing i with
  | nil => exact alike_return i
  | cons row rows ih =>
    refine alike_compute _ fun pk => ?_
    exact alike_bind (alike_wrap (alike_deleteRow h pk) _ _) fun _ _ => ih (i + 1)

end Loops

section Nodes

/-- The rows of a source are worked on alike. -/
theorem alike_source {source : Node} {format : String} {args : List Arg}
    {next : List Bytes × List Row → ExecM ResultSet}
    (hsource : Alike codec T (execute walk source) fun _ => True)
    (hnext : ∀ rows, Alike codec T (next rows) fun _ => True) :
    Alike codec T (do
      let result ← (execute walk source).wrap format args
      next (← .ofExcept result.toRows)) fun _ => True :=
  alike_bind (alike_wrap hsource _ _) fun result _ => alike_compute result.toRows hnext

theorem alike_rows (r : Outcome α) (f : α → ResultSet) :
    Alike codec T (do return f (← .ofExcept r)) fun _ => True :=
  alike_compute r fun a => alike_return (f a)

/-- A query reads the same from the map and from the relations. -/
theorem alike_query {node : Node} (h : Planned node) :
    Alike codec T (execute walk node) fun _ => True := by
  induction node with
  | scan name =>
    refine alike_bind (alike_loadTable name) fun table htable => ?_
    exact alike_bind (alike_wrap (alike_scanTable htable) _ _) fun rows _ => alike_return _
  | filter source predicate ih => exact alike_source (ih h.1) fun rows => alike_rows _ _
  | order source orderBy ih => exact alike_source (ih h) fun rows => alike_rows _ _
  | limit source limit ih => exact alike_source (ih h.1) fun rows => alike_rows _ _
  | offset source offset ih => exact alike_source (ih h.1) fun rows => alike_rows _ _
  | projection source items ih =>
    exact alike_source (ih h.1) fun rows => alike_compute _ fun result => alike_return _
  | aggregate source items groupBy ih =>
    exact alike_source (ih h.1) fun rows => alike_compute _ fun result => alike_return _
  | nestedLoopJoin left right predicate outer ihleft ihright =>
    refine alike_source (ihleft h.1) fun lefts => ?_
    exact alike_source (ihright h.2.1) fun rights => alike_rows _ _
  | createTable | insert | update | delete => exact h.elim

/-- Every planned statement but CREATE TABLE leaves the tables as they are. -/
theorem alike_statement (hc : Faithful codec) {node : Node} (h : PlannedStatement node)
    (htable : ∀ schema, node ≠ .createTable schema) :
    Alike codec T (execute walk node) fun _ => True := by
  cases node with
  | createTable schema => exact absurd rfl (htable schema)
  | insert name columns values =>
    refine alike_bind (alike_loadTable name) fun table _ => ?_
    exact alike_bind (alike_insertRows hc name table columns values 0) fun _ _ => alike_return _
  | update name source assignments =>
    refine alike_bind (alike_loadTable name) fun table hknown => alike_compute _ fun resolved => ?_
    refine alike_bind (alike_query h.2.1.planned) fun result _ => alike_compute _ fun rows => ?_
    exact alike_bind (alike_updateRows hc hknown resolved rows.2 0) fun _ _ => alike_return _
  | delete name source =>
    refine alike_bind (alike_loadTable name) fun table hknown => ?_
    refine alike_bind (alike_query h.2.planned) fun result _ => alike_compute _ fun rows => ?_
    exact alike_bind (alike_deleteRows hknown rows.2 0) fun _ _ => alike_return _
  | _ => exact alike_query h

end Nodes

theorem createNode_run {σ : Type} (h : Handler TxnCall TxnRet σ) (schema : Table) (s : σ) :
    (execute walk (.createTable schema)).run h s =
      ((h (.createTable schema) s).1.map fun _ => .createTable schema.name,
        (h (.createTable schema) s).2) := by
  unfold execute
  rw [Prog.bind_eq, Prog.run_bind, run_txn]
  cases h (.createTable schema) s with
  | mk r s' => cases r <;> rfl

/-- A planned statement runs on a map as on the relations that it represents. -/
theorem Represents.run_statement (hc : Faithful codec) (hr : Represents codec m d) (walk : Walk)
    {node : Node} (h : PlannedStatement node) :
    ((execute walk node).run (tables codec) m).1 =
    ((execute walk node).run (Relations.call codec) d).1 ∧
      ∀ result, ((execute walk node).run (tables codec) m).1 = .ok result →
        Represents codec ((execute walk node).run (tables codec) m).2
          ((execute walk node).run (Relations.call codec) d).2 := by
  by_cases hnode : ∃ schema, node = .createTable schema
  · obtain ⟨schema, rfl⟩ := hnode
    obtain ⟨T, hsame, hrepresents⟩ := hr.createTable hc h.1.separated
    rw [createNode_run, createNode_run, ← hsame]
    refine ⟨rfl, fun result hresult => ?_⟩
    obtain ⟨u, hu, -⟩ := outcome_map_ok hresult
    exact (hrepresents u hu).1
  · obtain ⟨hsame, hrepresents⟩ := alike_statement hc h (not_exists.mp hnode) m d ⟨hr, rfl⟩
    exact ⟨hsame, fun result hresult => (hrepresents result hresult).2.1⟩

section Statements
variable {setting : Setting}

/-- A statement on its own does to a map what it does to the relations. -/
theorem Represents.execute (hc : Faithful setting.codec)
    (h : Represents setting.codec m d) (i : Nat)
    (sql : Bytes) : (serially setting i sql m).1 = (d.execute setting i sql).1 ∧
      Represents setting.codec (serially setting i sql m).2 (d.execute setting i sql).2 := by
  unfold serially Relations.execute
  cases hplan : Session.plan sql with
  | error e => exact ⟨rfl, h⟩
  | ok node =>
    obtain ⟨hsame, hrepresents⟩ :=
      h.run_statement hc (setting.walks.order i) (planned_text hplan)
    dsimp only
    generalize (Sql.execute (setting.walks.order i) node).run (tables setting.codec) m = a
      at hsame hrepresents ⊢
    generalize (Sql.execute (setting.walks.order i) node).run (Relations.call setting.codec) d = b
      at hsame hrepresents ⊢
    obtain ⟨ra, m'⟩ := a
    obtain ⟨rb, d'⟩ := b
    obtain rfl : ra = rb := hsame
    rcases ra with (_ | message) | result
    · exact ⟨rfl, h⟩
    · exact ⟨rfl, h⟩
    · exact ⟨rfl, hrepresents result rfl⟩

/-- Statements one after the other. -/
theorem Represents.executeAll (hc : Faithful setting.codec)
    (h : Represents setting.codec m d) (i : Nat)
    (sqls : List Bytes) : (seriallyAll setting i sqls m).1 = (d.executeAll setting i sqls).1 ∧
      Represents setting.codec (seriallyAll setting i sqls m).2
        (d.executeAll setting i sqls).2 := by
  have hruns := inTurn_alike (f := serially setting) (g := Relations.execute setting)
    (R := fun _ => Represents setting.codec) (S := Represents setting.codec)
    (fun i sql h => by
      rw [ite_self]
      exact h.execute hc i sql) i sqls h
  rwa [ite_self] at hruns

variable {w : World} {t : Nat}

/-- What has been committed at any time represents relations. -/
theorem reaches_represents (hc : Faithful setting.codec) (h : setting.Reaches w)
    (hb : w.sys.begins < 2 ^ 64 - 1) {us : List Nat} (hus : us <+: w.sys.commits) :
    ∃ d, Represents setting.codec (committedMap w.sys us) d := by
  have hsound := reaches_rowStore hc h hb
  have hstore := ((rowStore_merges setting.codec).absorbs.history hsound.sys hsound.writes hus us
    (List.prefix_refl us)).1
  apply RowStore.represents
  rwa [← funext (holding_committed w.sys us)]

/-- Without overlap SpaceDB is a relational database: from whatever state its
transactions and crashes have left, each statement has the result that it has on
the relations, and leaves what it leaves there. -/
theorem serial_statements_on_relations (hc : Faithful setting.codec) (h : setting.Reaches w)
    (hfinished : Finished w.sys) (i : Nat) (sqls : List Bytes)
    (hb : w.sys.begins + sqls.length < 2 ^ 64 - 1) :
    ∃ d, Represents setting.codec (committedMap w.sys w.sys.commits) d ∧
      (executeAll setting i sqls w.sys).1 = (d.executeAll setting i sqls).1 ∧
      Represents setting.codec
        (committedMap (executeAll setting i sqls w.sys).2
          (executeAll setting i sqls w.sys).2.commits)
        (d.executeAll setting i sqls).2 := by
  obtain ⟨d, hd⟩ := reaches_represents hc h (by omega) (List.prefix_refl _)
  have hrest : AtRest w.sys (committedMap w.sys w.sys.commits) :=
    ⟨reaches_inv h (by omega), hfinished, holding_committed _ _⟩
  obtain ⟨hresults, hholding, -⟩ := hrest.executeAll setting i sqls hb
  obtain ⟨hsame, hrepresents⟩ := hd.executeAll hc i sqls
  refine ⟨d, hd, hresults.trans hsame, ?_⟩
  rwa [(holding_committed _ _).unique hholding]

/-- From a table with a row: one row more, and the same row again. -/
theorem serial_statements_on_relations_rows : ∃ w d, serialSetting.run .init oneRow = some w ∧
    Represents serialSetting.codec (committedMap w.sys w.sys.commits) d ∧
    (committedMap w.sys w.sys.commits).entries.length = 2 ∧
    (executeAll serialSetting 2
      [ascii "INSERT INTO t VALUES (2);", ascii "INSERT INTO t VALUES (2);",
        ascii "SELECT * FROM t;"] w.sys).1 =
      (d.executeAll serialSetting 2 [ascii "INSERT INTO t VALUES (2);",
        ascii "INSERT INTO t VALUES (2);", ascii "SELECT * FROM t;"]).1 := by
  have hc : Faithful serialSetting.codec := serialCodec_faithful
  obtain ⟨w, hrun, hfinished, hbegins, hentries⟩ := oneRow_run
  obtain ⟨d, hd, hresults, -⟩ := serial_statements_on_relations hc ⟨_, hrun⟩ hfinished 2
    [ascii "INSERT INTO t VALUES (2);", ascii "INSERT INTO t VALUES (2);", ascii "SELECT * FROM t;"]
    (by simp only [hbegins, List.length_cons, List.length_nil]; decide)
  exact ⟨w, d, hrun, hd, hentries, hresults⟩

/-- A statement that has returned without a conflict has done what it does to the
relations of its snapshot. -/
theorem reaches_executed (hc : Faithful setting.codec) (h : setting.Reaches w)
    (hb : w.sys.begins < 2 ^ 64 - 1) {j : Nat} {e : Execution} {r : Outcome ResultSet} {x : Txn}
    (he : w.executions j = some e) (hr : e.result = some r) (ht : e.handle = some t)
    (hx : w.sys.txns t = some x) (hd : Represents setting.codec (committedMap w.sys x.seen) d) :
    x.status = endStatus r ∧ (r = (d.execute setting j e.sql).1 ∧ (∀ result, r = .ok result →
        Represents setting.codec (overwritten (committedMap w.sys x.seen) x.writes)
          (d.execute setting j e.sql).2) ∨ ∃ f, r = .error f ∧ Conflict f) := by
  obtain ⟨y, hy, hstatus, hended⟩ := reaches_returned h hb he hr ht
  rw [hx] at hy
  cases hy
  refine ⟨hstatus, ?_⟩
  rcases hended with ⟨hrun, -⟩ | hconflict
  · left
    obtain ⟨hresult, hleft⟩ := run_serially setting j e.sql (committedMap w.sys x.seen)
    obtain ⟨hsame, hrepresents⟩ := hd.execute hc j e.sql
    rw [hrun] at hresult hleft
    refine ⟨hresult.trans hsame, fun result hok => ?_⟩
    have hmap : overwritten (committedMap w.sys x.seen) x.writes =
        (serially setting j e.sql (committedMap w.sys x.seen)).2 := hleft result (hresult ▸ hok)
    rwa [hmap]
  · exact .inr hconflict

/-- Statements at the same time work each on the relations of its snapshot. -/
theorem statement_on_relations (hc : Faithful setting.codec) (h : setting.Reaches w)
    (hb : w.sys.begins < 2 ^ 64 - 1) {j : Nat} {e : Execution} {r : Outcome ResultSet}
    (he : w.executions j = some e) (hr : e.result = some r) (ht : e.handle = some t) :
    ∃ x d, w.sys.txns t = some x ∧ x.seen <+: w.sys.commits ∧
      Represents setting.codec (committedMap w.sys x.seen) d ∧
      (r = (d.execute setting j e.sql).1 ∨ ∃ f, r = .error f ∧ Conflict f) ∧
      ∀ result, r = .ok result → t ∈ w.sys.commits ∧
        Represents setting.codec (overwritten (committedMap w.sys x.seen) x.writes)
          (d.execute setting j e.sql).2 := by
  have hinv := reaches_inv h hb
  obtain ⟨x, hx, -⟩ := reaches_returned h hb he hr ht
  obtain ⟨d, hd⟩ := reaches_represents hc h hb (hinv.seen hx)
  obtain ⟨hstatus, hended⟩ := reaches_executed hc h hb he hr ht hx hd
  refine ⟨x, d, hx, hinv.seen hx, hd, ?_⟩
  rcases hended with ⟨hsame, hleft⟩ | ⟨f, rfl, hconflict⟩
  · refine ⟨.inl hsame, fun result hok => ⟨?_, hleft result hok⟩⟩
    subst hok
    exact hinv.committed.mpr ⟨x, hx, hstatus⟩
  · exact ⟨.inr ⟨f, rfl, hconflict⟩, fun result hok => by cases hok⟩

/-- The SELECT that began before an INSERT is one on the relations before it. -/
theorem statement_on_relations_select : ∃ w x d, serialSetting.run .init readAcross = some w ∧
    w.sys.commits = [0, 1, 3, 2] ∧ w.sys.txns 2 = some x ∧ x.seen = [0, 1] ∧
    Represents serialSetting.codec (committedMap w.sys [0, 1]) d ∧
    (d.execute serialSetting 2 (ascii "SELECT * FROM t;")).1 =
      .ok (.rows [ascii "a"] [rowOfInteger ⟨1, by decide⟩]) := by
  obtain ⟨w, e, x, hrun, he, hx, hsql, hhandle, hresult, hseen, hcommits, hbegins⟩ := readAcross_run
  have hc : Faithful serialSetting.codec := serialCodec_faithful
  obtain ⟨y, d, hy, -, hd, houtcome⟩ :=
    statement_on_relations hc ⟨_, hrun⟩ (by omega) he hresult hhandle
  rw [hx] at hy
  cases hy
  rw [hseen] at hd
  rw [hsql] at houtcome
  rcases houtcome.1 with hsame | ⟨f, hf, -⟩
  · exact ⟨w, x, d, hrun, hcommits, hx, hseen, hd, hsame.symm⟩
  · cases hf

end Statements

end SpaceDB.Proofs
