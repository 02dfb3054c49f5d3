import SpaceDB.Proofs.StoredTables

namespace SpaceDB.Proofs
open Lib Storage Sql Engine

variable {setting : Setting} {m : Contents} {table : Table} {sql name : Bytes}
    {predicate : Option Expression}

def selectAll (name : Bytes) (predicate : Option Expression) : Statement :=
  .select ⟨.table name, [], predicate, none, none, [], none, none⟩

theorem plan_selectAll (h : parse sql = .ok (selectAll name predicate)) :
    Session.plan sql = .ok (filtered (.scan name) predicate) := by
  unfold Session.plan
  rw [h]
  rfl

theorem plan_delete (h : parse sql = .ok (.delete ⟨name, predicate⟩)) :
    Session.plan sql = .ok (.delete name (filtered (.scan name) predicate)) := by
  unfold Session.plan
  rw [h]
  rfl

/-- A successful statement on the map. -/
theorem serially_ok {node : Node} {i : Nat} {result : ResultSet} {m' : Contents}
    (hplan : Session.plan sql = .ok node)
    (h : (Sql.execute (setting.walks.order i) node).run (tables setting.codec) m =
      (.ok result, m')) :
    serially setting i sql m = (.ok result, m') := by
  unfold serially
  simp only [hplan, h]

/-- A statement that has succeeded on the map has run to its end. -/
theorem serially_inv {node : Node} {i : Nat} {result : ResultSet} {m' : Contents}
    (hplan : Session.plan sql = .ok node)
    (hrun : serially setting i sql m = (.ok result, m')) :
    (Sql.execute (setting.walks.order i) node).run (tables setting.codec) m = (.ok result, m') := by
  unfold serially at hrun
  simp only [hplan] at hrun
  generalize (Sql.execute (setting.walks.order i) node).run (tables setting.codec) m = r at hrun ⊢
  obtain ⟨answer, m₁⟩ := r
  cases answer with
  | ok a => exact hrun
  | error f => cases f <;> cases hrun

theorem serially_error {node : Node} {i : Nat} {e : Fault} {m' : Contents}
    (hplan : Session.plan sql = .ok node)
    (h : (Sql.execute (setting.walks.order i) node).run (tables setting.codec) m = (.error e, m')) :
    ∃ e', serially setting i sql m = (.error e', m) := by
  unfold serially
  simp only [hplan, h]
  cases e <;> exact ⟨_, rfl⟩

/-- A SELECT with a WHERE clause returns the rows that the clause selects. -/
theorem HasTable.serially_select {i : Nat} {selected : List Row}
    (h : HasTable setting.codec m table)
    (hparse : parse sql = .ok (selectAll table.name predicate))
    (hselect : selectRows predicate (table.columns.map Column.name)
      ((storedRows setting.codec m table).map Prod.snd) = .ok selected) :
    serially setting i sql m = (.ok (.rows (table.columns.map Column.name) selected), m) := by
  apply serially_ok (plan_selectAll hparse)
  rw [h.source_run, hselect]
  rfl

/-- The rows whose keys are not those of selected rows are the rows that are not
selected. -/
theorem unselected_rows {codec : Codec} (m : Contents) (table : Table) (holds : Row → Bool) :
    ((storedRows codec m table).filter fun p =>
        decide (p.1 ∉ ((storedRows codec m table).filter fun p => holds p.2).map Prod.fst)).map
          Prod.snd =
      ((storedRows codec m table).map Prod.snd).filter (fun row => !holds row) := by
  rw [List.filter_map]
  congr 1
  apply List.filter_congr
  intro p hp
  have hkeys : p.1 ∈ ((storedRows codec m table).filter fun p => holds p.2).map Prod.fst ↔
      holds p.2 = true := by
    rw [List.mem_map]
    constructor
    · rintro ⟨q, hq, hkey⟩
      obtain ⟨hq, hholds⟩ := List.mem_filter.mp hq
      rw [← storedRows_unique hq hp hkey]
      exact hholds
    · exact fun hholds => ⟨p, List.mem_filter.mpr ⟨hp, hholds⟩, rfl⟩
  simp [hkeys]

theorem filter_not_selected {rows selected : List Row} {holds : Row → Bool}
    (h : selected = rows.filter holds) :
    rows.filter (fun row => !holds row) = rows.filter (fun row => decide (row ∉ selected)) := by
  apply List.filter_congr
  intro row hrow
  simp [h, hrow]

/-- On the map either both statements fail, or the DELETE removes what the
SELECT returns. -/
theorem serially_delete {deleteSql selectSql allSql : Bytes}
    (hstore : RowStore setting.codec m.find?)
    (hdelete : parse deleteSql = .ok (.delete ⟨name, predicate⟩))
    (hselect : parse selectSql = .ok (selectAll name predicate))
    (hall : parse allSql = .ok (selectAll name none)) (i j k l : Nat) :
    (∃ e e', (serially setting i deleteSql m).1 = .error e ∧
      (serially setting j selectSql m).1 = .error e') ∨
      ∃ columns rows selected m',
        serially setting i deleteSql m = (.ok (.delete selected.length), m') ∧
        serially setting j selectSql m = (.ok (.rows columns selected), m) ∧
        serially setting k allSql m = (.ok (.rows columns rows), m) ∧
        serially setting l allSql m' =
          (.ok (.rows columns (rows.filter fun row => decide (row ∉ selected))), m') := by
  have hname : name ≠ [] := (planned_text (plan_delete hdelete)).1.ne_nil
  have hfails : ∀ {e e' : Fault},
      (Sql.execute (setting.walks.order i) (.delete name (filtered (.scan name) predicate))).run
        (tables setting.codec) m = (.error e, m) →
      (Sql.execute (setting.walks.order j) (filtered (.scan name) predicate)).run
        (tables setting.codec) m = (.error e', m) →
      ∃ e e', (serially setting i deleteSql m).1 = .error e ∧
        (serially setting j selectSql m).1 = .error e' := by
    intro e e' he he'
    obtain ⟨f, hf⟩ := serially_error (plan_delete hdelete) he
    obtain ⟨f', hf'⟩ := serially_error (plan_selectAll hselect) he'
    exact ⟨f, f', by rw [hf], by rw [hf']⟩
  cases hfind : m.find? (keyNamespaceTable :: name) with
  | none =>
    left
    obtain ⟨e, hload⟩ : ∃ e, (loadTable name).run (tables setting.codec) m =
      (.error (.error e), m) :=
      loadTable_missing hname hfind
    obtain ⟨e', hsource⟩ : ∃ e,
      (Sql.execute (setting.walks.order j) (filtered (.scan name) predicate)).run
        (tables setting.codec) m = (.error (.error e), m) := source_missing hname hfind
    refine hfails (e := .error e) ?_ hsource
    unfold Sql.execute
    exact Prog.run_bind_error _ hload _
  | some encoded =>
    obtain ⟨table, hdecoded, hok⟩ := hstore.tables hfind
    obtain ⟨htable, hkeyed⟩ := hstore.hasTable ⟨⟨encoded, hfind, hdecoded⟩, hok⟩ hname
    obtain rfl := hok.named
    cases hrows : selectRows predicate (table.columns.map Column.name)
        ((storedRows setting.codec m table).map Prod.snd) with
    | error e =>
      left
      have hsource : ∀ walk, (Sql.execute walk (filtered (.scan table.name) predicate)).run
          (tables setting.codec) m = (.error e, m) := by
        intro walk
        rw [htable.source_run, hrows]
        rfl
      refine hfails (e := e) ?_ (hsource _)
      unfold Sql.execute
      refine (Prog.run_bind_ok _ (loadTable_run htable.getTable) _).trans ?_
      exact Prog.run_bind_error _ (hsource _) _
    | ok selected =>
      right
      have hkeys : ∀ k ∈ ((storedRows setting.codec m table).filter fun p =>
          holdsFor predicate (table.columns.map Column.name) p.2).map Prod.fst,
          rowStart table <+: k :=
        storedRows_keys fun p hp => (List.mem_filter.mp hp).1
      have hafter := htable.eraseAll hkeys
      refine ⟨_, _, selected, _, serially_ok (plan_delete hdelete) (htable.delete_run hkeyed hrows),
        htable.serially_select hselect hrows, htable.serially_select hall rfl, ?_⟩
      rw [hafter.serially_select hall rfl, storedRows_eraseAll, unselected_rows,
        filter_not_selected (selectRows_ok hrows)]

/-- A DELETE that runs alone removes exactly the rows that a SELECT with the
same WHERE clause returns. -/
theorem delete_removes_selected {w : World} {deleteSql selectSql allSql : Bytes}
    (hc : Faithful setting.codec) (h : setting.Reaches w) (hfinished : Finished w.sys)
    (hb : w.sys.begins < 2 ^ 64 - 3) (hdelete : parse deleteSql = .ok (.delete ⟨name, predicate⟩))
    (hselect : parse selectSql = .ok (selectAll name predicate))
    (hall : parse allSql = .ok (selectAll name none)) (i j k l : Nat) :
    ((∃ r, (setting.execute i deleteSql w.sys).1 = .ok r) ↔
        ∃ r, (setting.execute j selectSql w.sys).1 = .ok r) ∧
      ∀ r, (setting.execute i deleteSql w.sys).1 = .ok r → ∃ columns rows selected,
        (setting.execute j selectSql w.sys).1 = .ok (.rows columns selected) ∧
        r = .delete selected.length ∧
        (setting.execute k allSql w.sys).1 = .ok (.rows columns rows) ∧
        (setting.execute l allSql (setting.execute i deleteSql w.sys).2).1 =
          .ok (.rows columns (rows.filter fun row => decide (row ∉ selected))) := by
  obtain ⟨m, hrest, hstore⟩ := reaches_atRest hc h hfinished (by omega)
  have hb' : w.sys.begins + 1 < 2 ^ 64 - 1 := by omega
  rw [hrest.result hb', hrest.result hb', hrest.result hb']
  rcases serially_delete hstore hdelete hselect hall i j k l with
    ⟨e, e', he, he'⟩ | ⟨columns, rows, selected, m', hrun, hrows, hbefore, hafter⟩
  · rw [he, he']
    exact ⟨iff_of_false nofun nofun, nofun⟩
  · obtain ⟨hrest', hbegins⟩ := hrest.after hb' hrun
    rw [hrun, hrows, hbefore, hrest'.result (by omega), hafter]
    refine ⟨iff_of_true ⟨_, rfl⟩ ⟨_, rfl⟩, ?_⟩
    rintro r ⟨⟩
    exact ⟨columns, rows, selected, rfl, rfl, rfl, rfl⟩

def pairRow (key : Sql.Int64) (value : Value) : Row := [.integer key, value]

def fourRows : List Event :=
  executed 0 "CREATE TABLE t (a INT PRIMARY KEY, b INT);" 4 ++
    executed 1 "INSERT INTO t VALUES (1, 10), (2, NULL), (3, 10), (4, 20);" 15

/-- Rows for which the WHERE clause is NULL stay as those for which it is FALSE. -/
theorem delete_removes_selected_null : ∃ w, serialSetting.Reaches w ∧ Finished w.sys ∧
    (serialSetting.execute 2 (ascii "DELETE FROM t WHERE b = 10;") w.sys).1 = .ok (.delete 2) ∧
    (serialSetting.execute 3 (ascii "SELECT * FROM t;")
      (serialSetting.execute 2 (ascii "DELETE FROM t WHERE b = 10;") w.sys).2).1 =
      .ok (.rows [ascii "a", ascii "b"]
        [pairRow ⟨2, by decide⟩ .null, pairRow ⟨4, by decide⟩ (.integer ⟨20, by decide⟩)]) := by
  have hobserve : (serialSetting.run .init fourRows).bind (fun w =>
      if w.sys.begins = 2 ∧ allEnded w.sys = true then
        some ((serialSetting.execute 2 (ascii "DELETE FROM t WHERE b = 10;") w.sys).1,
          (serialSetting.execute 2 (ascii "SELECT * FROM t WHERE b = 10;") w.sys).1,
          (serialSetting.execute 2 (ascii "SELECT * FROM t;") w.sys).1) else none) =
      some (.ok (.delete 2), .ok (.rows [ascii "a", ascii "b"]
          [pairRow ⟨1, by decide⟩ (.integer ⟨10, by decide⟩),
            pairRow ⟨3, by decide⟩ (.integer ⟨10, by decide⟩)]),
        .ok (.rows [ascii "a", ascii "b"]
          [pairRow ⟨1, by decide⟩ (.integer ⟨10, by decide⟩), pairRow ⟨2, by decide⟩ .null,
            pairRow ⟨3, by decide⟩ (.integer ⟨10, by decide⟩),
            pairRow ⟨4, by decide⟩ (.integer ⟨20, by decide⟩)])) := by
    decide +kernel
  obtain ⟨w, hrun, hw⟩ := Option.bind_eq_some_iff.mp hobserve
  split_ifs at hw with hchecks
  simp only [Option.some.injEq, Prod.mk.injEq] at hw
  obtain ⟨hdone, hselected, hrows⟩ := hw
  have hreaches : serialSetting.Reaches w := ⟨_, hrun⟩
  have hfinished : Finished w.sys :=
    finished_of_allEnded (reaches_inv hreaches (by omega)).bound hchecks.2
  have hparse : ∃ predicate, parse (ascii "DELETE FROM t WHERE b = 10;") =
      .ok (.delete ⟨ascii "t", predicate⟩) ∧
      parse (ascii "SELECT * FROM t WHERE b = 10;") = .ok (selectAll (ascii "t") predicate) :=
    ⟨some ⟨.operationExpression, .operation .operationEqual .columnReference (.string (ascii "b"))
      .integerLiteral (.int64 ⟨10, by decide⟩)⟩, by decide +kernel, by decide +kernel⟩
  obtain ⟨predicate, hdelete, hselect⟩ := hparse
  obtain ⟨-, hremoves⟩ := delete_removes_selected serialCodec_faithful hreaches hfinished (by omega)
    hdelete hselect
      (by decide +kernel : parse (ascii "SELECT * FROM t;") = .ok (selectAll (ascii "t") none))
    2 2 2 3
  obtain ⟨columns, rows, selected, hselected', -, hrows', hafter⟩ := hremoves _ hdone
  rw [hselected] at hselected'
  rw [hrows] at hrows'
  cases hselected'
  cases hrows'
  exact ⟨w, hreaches, hfinished, hdone, hafter⟩

theorem exists_error {α : Type} {r : Outcome α} (h : r.toOption.isNone = true) :
    ∃ e, r = .error e := by
  cases r with
  | ok a => cases h
  | error e => exact ⟨e, rfl⟩

theorem execute_after_result {old s : Sys} (setting : Setting)
    (hb : old.begins ≤ s.begins) (i : Nat)
    (sql : Bytes) : (setting.execute i sql (Sys.after old s)).1 = (setting.execute i sql s).1 := by
  unfold Setting.execute
  rw [session_after _ hb (by simp)]

/-- What `twoTables` leaves for a transaction that takes the last version but one. -/
def lastWorld : World :=
  resumedWorld (committedData twoTablesRecords) (2 + (2 ^ 64 - 5)) (2 + (2 ^ 64 - 5))

/-- There is a database with two versions left. -/
theorem reaches_lastWorld : ∃ w, serialSetting.Reaches w ∧ Finished w.sys ∧
    w.sys.begins = 2 ^ 64 - 3 ∧
    ∀ i sql, (serialSetting.execute i sql w.sys).1 = (serialSetting.execute i sql lastWorld.sys).1 ∧
      ∀ j sql', (serialSetting.execute j sql' (serialSetting.execute i sql w.sys).2).1 =
        (serialSetting.execute j sql' (serialSetting.execute i sql lastWorld.sys).2).1 := by
  obtain ⟨w, hreaches, hbegins, hresumes, w₀, hrun, hothers⟩ :=
    world_rounds twoTablesRecords twoTables
    [0, 1] (a := 2) (b := 2) (2 ^ 64 - 5) (by decide) (by decide) (by decide) (by decide +kernel)
  have hfinished : Finished w.sys := by
    have hended : (serialSetting.run .init twoTables).map
        (fun w => (w.sys.begins, allEnded w.sys)) =
        some (2, true) := by decide +kernel
    rw [hrun, Option.map_some, Option.some.injEq, Prod.mk.injEq] at hended
    have hfirst : Finished w₀.sys :=
      finished_of_allEnded (reaches_inv ⟨_, hrun⟩ (by omega)).bound hended.2
    intro t x hx
    rcases hothers t x hx with hstatus | hold
    · exact .inr hstatus
    · exact hfirst t x hold
  have hsys := hresumes.sys
  have hold := hresumes.begins
  refine ⟨w, hreaches, hfinished, hbegins, fun i sql => ⟨?_, fun j sql' => ?_⟩⟩
  · rw [hsys, execute_after_result _ hold]
    rfl
  · rw [hsys, execute_after _ hold,
      execute_after_result _ (le_trans hold (execute_begins_le _ _ _ _))]
    rfl

/-- A DELETE takes the last version but one, and the SELECT after it does not
find the table. -/
theorem table_lost_after_delete : ∃ w, serialSetting.Reaches w ∧ Finished w.sys ∧
    w.sys.begins = 2 ^ 64 - 3 ∧
    (serialSetting.execute 3 (ascii "SELECT * FROM t;") w.sys).1 = .ok (.rows [ascii "a"] []) ∧
    (serialSetting.execute 3 (ascii "DELETE FROM t;") w.sys).1 = .ok (.delete 0) ∧
    ∃ e, (serialSetting.execute 4 (ascii "SELECT * FROM t;")
      (serialSetting.execute 3 (ascii "DELETE FROM t;") w.sys).2).1 = .error e := by
  obtain ⟨w, hreaches, hfinished, hbegins, hexecute⟩ := reaches_lastWorld
  refine ⟨w, hreaches, hfinished, hbegins, ?_, ?_, ?_⟩
  · rw [(hexecute _ _).1]
    decide +kernel
  · rw [(hexecute _ _).1]
    decide +kernel
  · rw [(hexecute _ _).2]
    exact exists_error (by decide +kernel)

end SpaceDB.Proofs
