import SpaceDB.Proofs.StoredKeys
import SpaceDB.Proofs.Updates

namespace SpaceDB.Proofs
open Lib Storage Sql Engine

variable {columns : List Column} {table : Table} {name : Bytes}

section Names

theorem positionOf_append (columns : List Column) (c : Column) (name : Bytes) :
    positionOf (columns ++ [c]) name =
      if c.name = name then some columns.length else positionOf columns name := by
  unfold positionOf
  rw [List.zipIdx_append, List.reverse_append, List.zipIdx_singleton, List.reverse_singleton,
    List.singleton_append, List.find?_cons]
  by_cases hname : c.name = name <;> simp [hname]

/-- INSERT takes the last column of a name. -/
theorem positionOf_last {l j : Nat} {c : Column} (h : positionOf columns name = some l)
    (hj : columns[j]? = some c) (hname : c.name = name) : j ≤ l := by
  induction columns using List.reverseRecOn with
  | nil => simp at hj
  | append_singleton columns d ih =>
    rw [positionOf_append] at h
    have hlt : j < columns.length + 1 := by simpa using (List.getElem?_eq_some_iff.mp hj).1
    split_ifs at h with hd
    · cases h
      omega
    · rcases Nat.lt_or_ge j columns.length with hj' | hj'
      · exact ih h (by rwa [List.getElem?_append_left hj'] at hj)
      · obtain rfl : j = columns.length := by omega
        rw [List.getElem?_concat_length] at hj
        cases hj
        exact absurd hname hd

def OneColumn (columns : List Column) (name : Bytes) : Prop :=
  ∀ {i j : Nat} {c d : Column}, columns[i]? = some c → columns[j]? = some d → c.name = name →
    d.name = name → i = j

def firstColumn (columns : List Column) (name : Bytes) : Option Column :=
  columns.find? fun c => decide (c.name = name)

/-- UPDATE and SELECT take the first column of a name. They agree with INSERT on
the names that only one column has. -/
theorem same_column_iff {k l : Nat}
    (hfirst : columns.findIdx? (fun c => decide (c.name = name)) = some k)
    (hlast : positionOf columns name = some l) : k = l ↔ OneColumn columns name := by
  obtain ⟨hk, hkname, hbefore⟩ := List.findIdx?_eq_some_iff_getElem.mp hfirst
  constructor
  · rintro rfl
    have honly : ∀ {i c}, columns[i]? = some c → c.name = name → i = k := by
      intro i c hi hname
      have hle := positionOf_last hlast hi hname
      by_contra hne
      have hlt : i < k := by omega
      rw [List.getElem?_eq_getElem (by omega), Option.some.injEq] at hi
      exact hbefore i hlt (by simp [hi, hname])
    intro i j c d hi hj hc hd
    rw [honly hi hc, honly hj hd]
  · intro hone
    obtain ⟨c, hl, hlname⟩ := positionOf_name hlast
    exact hone (List.getElem?_eq_getElem hk) hl (of_decide_eq_true hkname) hlname

/-- The value that a row has under a name, when it is inserted with `v` for the
name: `v` itself, or the default of the first column that has the name. -/
theorem inserted_at_first {names : List Bytes} {input full : Row} {v : Value} {k : Nat}
    (h : makeInsertRow table names input = .ok full) (hpair : (name, v) ∈ names.zip input)
    (hfirst : table.columns.findIdx? (fun c => decide (c.name = name)) = some k) :
    ∃ x, full[k]? = some x ∧ (OneColumn table.columns name ∧ x = v ∨
      ¬ OneColumn table.columns name ∧
      (firstColumn table.columns name).bind Column.default = some x) := by
  obtain ⟨hadmits, hcompleted⟩ := makeInsertRow_ok_iff.mp h
  obtain ⟨n, hn, hpair⟩ := List.getElem_of_mem hpair
  rw [List.getElem_zip, Prod.mk.injEq] at hpair
  rw [List.length_zip] at hn
  have hname : names[n]? = some name :=
    (List.getElem?_eq_getElem (by omega)).trans (congrArg some hpair.1)
  have hvalue : input[n]? = some v :=
    (List.getElem?_eq_getElem (by omega)).trans (congrArg some hpair.2)
  have hnames : names ≠ [] := by
    rintro rfl
    cases hname
  obtain ⟨l, hlast⟩ := hadmits.known name (List.mem_of_getElem? hname)
  obtain ⟨hk, hkname, -⟩ := List.findIdx?_eq_some_iff_getElem.mp hfirst
  have hcolumn := List.getElem?_eq_getElem hk
  by_cases hkl : k = l
  · have hsupplied : supplied table.columns names input k = some v := by
      unfold supplied
      rw [if_neg hnames, lookup_zip (i := n) hadmits.once
        (by rw [List.getElem?_map, hname, Option.map_some, hlast, hkl]),
        hvalue]
    refine ⟨v, ?_, .inl ⟨(same_column_iff hfirst hlast).mp hkl, rfl⟩⟩
    rw [hcompleted.values hcolumn, hsupplied]
    rfl
  · have hsupplied : supplied table.columns names input k = none := by
      unfold supplied
      rw [if_neg hnames, List.lookup_eq_none_iff]
      intro pair hpair
      obtain ⟨name', -, hposition⟩ := List.mem_map.mp (List.of_mem_zip hpair).1
      rw [bne_iff_ne, ← hposition]
      intro heq
      -- The first column would be the one that INSERT takes.
      obtain ⟨c, hc, hcname⟩ := positionOf_name heq.symm
      rw [hcolumn, Option.some.injEq] at hc
      rw [← hcname, ← hc, of_decide_eq_true hkname, hlast] at heq
      exact hkl (Option.some.inj heq)
    have hvalue := hcompleted.values hcolumn
    rw [hsupplied, Option.none_or] at hvalue
    have hlt : k < full.length := hcompleted.length ▸ hk
    rw [List.getElem?_eq_getElem hlt] at hvalue
    refine ⟨full[k], List.getElem?_eq_getElem hlt, .inr
      ⟨fun hone => hkl ((same_column_iff hfirst hlast).mpr hone), ?_⟩⟩
    rw [firstColumn, List.find?_eq_bind_findIdx?_getElem?, hfirst, Option.bind_some, hcolumn,
      Option.bind_some,
      hvalue]

end Names

def selectColumn (name column : Bytes) (predicate : Option Expression) : Statement :=
  .select ⟨.table name, [⟨⟨.columnReference, .string column⟩, none⟩], predicate, none,
    none, [], none, none⟩

section Queries
variable {setting : Setting} {codec : Codec} {m : Contents} {sql column : Bytes}
    {predicate : Option Expression}
  {k : Nat}

theorem plan_selectColumn (h : parse sql = .ok (selectColumn name column predicate)) :
    Session.plan sql = .ok (.projection (filtered (.scan name) predicate)
      [⟨⟨.columnReference, .string column⟩, none⟩]) := by
  unfold Session.plan
  rw [h]
  rfl

theorem columnIndexOf_eq (columns : List Column) (column : Bytes) :
    columnIndexOf (columns.map Column.name) column =
    columns.findIdx? (fun c => decide (c.name = column)) := by
  unfold columnIndexOf List.idxOf?
  rw [List.findIdx?_map]
  congr 1
  funext c
  simp [beq_eq_decide]

/-- A SELECT of one column reads the first column of that name. -/
theorem projectColumn (hfirst : table.columns.findIdx? (fun c => decide (c.name = column)) = some k)
    {row : Row} {x : Value} (hx : row[k]? = some x) :
    projectRows [⟨⟨.columnReference, .string column⟩, none⟩] (table.columns.map Column.name) [row] =
      .ok ([column], [[x]]) := by
  have hitem : resolveItem (table.columns.map Column.name)
      ⟨⟨.columnReference, .string column⟩, none⟩ =
      .ok ⟨some k, .null, column⟩ := by
    rw [resolveItem_found ((columnIndexOf_eq _ _).trans hfirst)]
    rfl
  have hvalue : (⟨some k, .null, column⟩ : ProjectedItem).value row = .ok x := index_eq hx
  have hrows : [row].mapM (fun row => [⟨some k, .null, column⟩].mapM
      fun item : ProjectedItem => item.value row) = Except.ok [[x]] := by
    rw [List.mapM_cons, List.mapM_cons, hvalue]
    rfl
  unfold projectRows
  rw [List.mapM_cons, hitem]
  exact congrArg (· >>= fun rows => .ok ([column], rows)) hrows

/-- The same as a statement, when the WHERE clause selects one row. -/
theorem HasTable.serially_column {i : Nat} {row : Row} {x : Value}
    (h : HasTable setting.codec m table)
    (hparse : parse sql = .ok (selectColumn table.name column predicate))
    (hselect : selectRows predicate (table.columns.map Column.name)
      ((storedRows setting.codec m table).map Prod.snd) = .ok [row])
    (hfirst : table.columns.findIdx? (fun c => decide (c.name = column)) = some k)
    (hx : row[k]? = some x) :
    serially setting i sql m = (.ok (.rows [column] [[x]]), m) := by
  have hsource := @HasTable.source_run setting.codec m table (setting.walks.order i) predicate h
  rw [hselect] at hsource
  apply serially_ok (plan_selectColumn hparse)
  rw [projectionNode_run hsource, projectColumn hfirst hx]
  rfl

theorem scan_of_filtered {σ : Type} {h : Handler TxnCall TxnRet σ} {walk : Walk} {s s' : σ}
    {result : ResultSet}
    (hrun : (Sql.execute walk (filtered (.scan name) predicate)).run h s = (.ok result, s')) :
    ∃ r s₁, (Sql.execute walk (.scan name)).run h s = (.ok r, s₁) := by
  cases predicate with
  | none => exact ⟨_, _, hrun⟩
  | some e =>
    change (Sql.execute walk (.filter (.scan name) e)).run h s = _ at hrun
    rw [Sql.execute] at hrun
    obtain ⟨r, s₁, hsource, -⟩ := Prog.run_bind_inv h hrun
    rw [run_wrap, Prod.mk.injEq] at hsource
    exact ⟨r, s₁, Prod.ext (outcome_wrap_ok hsource.1) hsource.2⟩

/-- A SELECT that succeeds has read the table. -/
theorem select_ok {i : Nat} {columns : List Bytes} {rows : List Row}
    (htable : (tables setting.codec (.getTable table.name) m).1 = .ok (some table))
    (hparse : parse sql = .ok (selectAll table.name predicate))
    (hrun : (serially setting i sql m).1 = .ok (.rows columns rows)) :
    HasTable setting.codec m table ∧ selectRows predicate (table.columns.map Column.name)
      ((storedRows setting.codec m table).map Prod.snd) = .ok rows := by
  have hsource := serially_inv (plan_selectAll hparse) (Prod.ext hrun rfl)
  obtain ⟨r, m₁, hscan⟩ := scan_of_filtered hsource
  obtain ⟨hname, encoded, hfind, hdecoded⟩ := getTable_ok htable
  rw [Sql.execute, Prog.bind_eq,
    Prog.run_bind_ok _ (loadTable_run (getTable_run hname hfind hdecoded))] at hscan
  obtain ⟨scannedRows, m₂, hscan, -⟩ := Prog.run_bind_inv _ hscan
  rw [run_wrap, run_txn, Prod.mk.injEq] at hscan
  obtain ⟨h, -⟩ := hasTable_of_scan htable (outcome_wrap_ok hscan.1)
  rw [h.source_run] at hsource
  refine ⟨h, ?_⟩
  cases hselect : selectRows predicate (table.columns.map Column.name)
      ((storedRows setting.codec m table).map Prod.snd) with
  | error e =>
    rw [hselect] at hsource
    cases congrArg Prod.fst hsource
  | ok selected =>
    rw [hselect] at hsource
    cases congrArg Prod.fst hsource
    rfl

/-- Of the rows that a WHERE clause holds for, only one is new. -/
theorem selected_new {columns : List Bytes} {rows rows' : List Row} {row new : Row}
    (hnone : selectRows predicate columns rows = .ok [])
    (hone : selectRows predicate columns rows' = .ok [row])
    (hrows : ∀ x ∈ rows', x = new ∨ x ∈ rows) : row = new := by
  have hin : row ∈ rows'.filter (holdsFor predicate columns) :=
    selectRows_ok hone ▸ List.mem_singleton_self row
  obtain ⟨hrow, hholds⟩ := List.mem_filter.mp hin
  rcases hrows row hrow with heq | hold
  · exact heq
  · have hgone : row ∈ rows.filter (holdsFor predicate columns) :=
      List.mem_filter.mpr ⟨hold, hholds⟩
    rw [← selectRows_ok hnone] at hgone
    cases hgone

end Queries

section Changes
variable {setting : Setting} {m m' : Contents} {sql : Bytes} {names : List Bytes}
    {es : List Expression}
  {read : Value → Value} {i : Nat} {result : ResultSet}

/-- An INSERT of one row adds it to the rows of the table. -/
theorem HasTable.inserted (hc : ReadsAs setting.codec read) (h : HasTable setting.codec m table)
    (hparse : parse sql = .ok (.insert ⟨table.name, names, [es]⟩))
    (hrun : serially setting i sql m = (.ok result, m')) :
    ∃ input full pk, es.mapM valueFromExpression = .ok input ∧
      makeInsertRow table names input = .ok full ∧
      table.primaryKeyValue full = .ok pk ∧ HasTable setting.codec m' table ∧
      (keyFor table pk, full.map read) ∈ storedRows setting.codec m' table ∧
      ∀ p ∈ storedRows setting.codec m' table,
        p = (keyFor table pk, full.map read) ∨ p ∈ storedRows setting.codec m table := by
  obtain ⟨n, -, hloop⟩ := h.insert_ok (serially_inv (plan_insert hparse) hrun)
  obtain ⟨input, full, m₁, hinput, hfull, hcreate, hrest⟩ := insertRows_cons_ok hloop
  cases hrest
  obtain ⟨pk, encoded, hvalid, hpk, hcoded, -, rfl⟩ := createRow_ok h hcreate
  have hmem :=
    fun p => @storedRows_insert setting.codec m table _ _ _ p (keyFor_start table pk) (hc hcoded)
  refine ⟨input, full, pk, insertValues_ok hinput, hfull, hpk,
    h.insert (keyFor_start table pk) (hc hcoded) ?_,
    (hmem _).mpr (.inl rfl), ?_⟩
  · rw [List.length_map]
    exact validateRow_length hvalid
  · exact fun p hp => ((hmem p).mp hp).imp_right And.left

/-- An UPDATE of one row replaces it. -/
theorem HasTable.updated {key : Bytes} {row : Row} {predicate : Option Expression}
    {assignments : OrderedMap Bytes Expression} (hc : ReadsAs setting.codec read)
    (h : HasTable setting.codec m table) (hown : Own table (key, row))
    (hselect : selectRows predicate (table.columns.map Column.name)
      ((storedRows setting.codec m table).map Prod.snd) = .ok [row])
    (hparse : parse sql = .ok (.update ⟨table.name, assignments, predicate⟩))
    (hrun : serially setting i sql m = (.ok result, m')) :
    HasTable setting.codec m' table ∧ ∀ p ∈ storedRows setting.codec m' table,
      p.2 = (replaceAssigned table assignments row).map read ∨
        p ∈ storedRows setting.codec m table ∧ p.1 ≠ key := by
  have hplan := plan_update hparse
  obtain ⟨-, -, hoperands⟩ := planned_text hplan
  obtain ⟨as, selected, n, has, hselected, -, hloop⟩ := h.update_ok (serially_inv hplan hrun)
  rw [hselect] at hselected
  cases hselected
  obtain ⟨new, encoded, hnew, hcoded, hlength, -, hrest⟩ := updateRows_cons_ok (p := (key, row))
    (resolved_changes (setting.walks.perm i _) hoperands has) hown hloop
  cases hrest
  have hdecoded := hc hcoded
  refine ⟨h.move (keyOf_start hown.key) (keyOf_start hnew) hdecoded (by simpa using hlength), ?_⟩
  intro p hp
  rcases (mem_storedRows_move (keyOf_start hnew) hdecoded).mp hp with rfl | ⟨hp, -, hne⟩
  · exact .inl rfl
  · exact .inr ⟨hp, hne⟩

end Changes

/-- What is read under a name, when a row was inserted with `v` for it: INSERT
gives `v` to the last column of the name, and SELECT reads the first one. -/
def ReadBack (columns : List Column) (name : Bytes) (v : Value) : Prop :=
  OneColumn columns name ∧ InUtf8 v ∨
    ¬ OneColumn columns name ∧ (firstColumn columns name).bind Column.default = some v

/-- The WHERE clause held for no row before and holds for one now. -/
def Restricts (setting : Setting) (name : Bytes) (predicate : Option Expression)
    (before after : Sys) : Prop :=
  ∃ sql i columns columns' row, parse sql = .ok (selectAll name predicate) ∧
    (setting.execute i sql before).1 = .ok (.rows columns []) ∧
    (setting.execute i sql after).1 = .ok (.rows columns' [row])

theorem plain_jsonValue {v : Value} (h : Plain v) : Plain (jsonValue v) := by
  cases v <;> exact h

section Statements
variable {setting : Setting} {schema : Table} {predicate : Option Expression} {s s' : Sys}
    {m m' : Contents}

theorem Restricts.has (h : Restricts setting table.name predicate s s') (hs : AtRest s m)
    (hb : s.begins + 1 < 2 ^ 64 - 1)
    (htable : (tables setting.codec (.getTable table.name) m).1 = .ok (some table)) :
    HasTable setting.codec m table := by
  obtain ⟨sql, i, columns, columns', row, hparse, hnone, -⟩ := h
  rw [hs.result hb] at hnone
  exact (select_ok htable hparse hnone).1

/-- When one row is new, it is the one that the WHERE clause holds for. -/
theorem Restricts.selects {new : Row} (h : Restricts setting table.name predicate s s')
    (hs : AtRest s m)
    (hs' : AtRest s' m') (hb : s.begins + 1 < 2 ^ 64 - 1) (hb' : s'.begins + 1 < 2 ^ 64 - 1)
    (ht : HasTable setting.codec m table) (ht' : HasTable setting.codec m' table)
    (hrows : ∀ p ∈ storedRows setting.codec m' table, p.2 = new ∨
      p ∈ storedRows setting.codec m table) :
    selectRows predicate (table.columns.map Column.name)
      ((storedRows setting.codec m' table).map Prod.snd) = .ok [new] := by
  obtain ⟨sql, i, columns, columns', row, hparse, hnone, hone⟩ := h
  rw [hs.result hb] at hnone
  rw [hs'.result hb'] at hone
  have hbefore := (select_ok (by rw [ht.getTable]) hparse hnone).2
  have hafter := (select_ok (by rw [ht'.getTable]) hparse hone).2
  rw [hafter]
  congr 2
  refine selected_new hbefore hafter (fun x hx => ?_)
  obtain ⟨p, hp, rfl⟩ := List.mem_map.mp hx
  exact (hrows p hp).imp_right (List.mem_map_of_mem)

theorem zip_values {names : List Bytes} {es : List Expression} {input : Row}
    {e : Expression} {v : Value}
    (hinput : es.mapM valueFromExpression = .ok input) (hpair : (name, e) ∈ names.zip es)
    (hvalue : valueFromExpression e = .ok v) : (name, v) ∈ names.zip input := by
  have hforall := mapM_forall₂ hinput
  have hlength := hforall.length_eq
  obtain ⟨n, hn, hpair⟩ := List.getElem_of_mem hpair
  rw [List.length_zip] at hn
  rw [List.getElem_zip, Prod.mk.injEq] at hpair
  have hv := hforall.get (i := n) (by omega) (by omega)
  rw [List.get_eq_getElem, hpair.2, hvalue, Except.ok.injEq, List.get_eq_getElem] at hv
  have hmem := List.getElem_mem (l := names.zip input) (n := n) (by rw [List.length_zip]; omega)
  rwa [List.getElem_zip, hpair.1, ← hv] at hmem

theorem first_of_zip {names : List Bytes} {input full : Row} {v : Value}
    (hfull : makeInsertRow table names input = .ok full) (hpair : (name, v) ∈ names.zip input) :
    ∃ k, table.columns.findIdx? (fun c => decide (c.name = name)) = some k := by
  obtain ⟨hadmits, -⟩ := makeInsertRow_ok_iff.mp hfull
  obtain ⟨l, hlast⟩ := hadmits.known name (List.of_mem_zip hpair).1
  obtain ⟨c, hc, hname⟩ := positionOf_name hlast
  apply Option.isSome_iff_exists.mp
  rw [List.findIdx?_isSome, List.any_eq_true]
  exact ⟨c, List.mem_of_getElem? hc, by simp [hname]⟩

/-- What a SELECT reads under a name after an INSERT with `v` for the name. -/
theorem HasTable.read_back_iff {names : List Bytes} {input full : Row} {v : Value}
    {columnSql : Bytes} {j : Nat}
    (h : HasTable setting.codec m table) (hdefaults : ∀ c ∈ table.columns, Given InUtf8 c.default)
    (hfull : makeInsertRow table names input = .ok full) (hpair : (name, v) ∈ names.zip input)
    (hselect : selectRows predicate (table.columns.map Column.name)
      ((storedRows setting.codec m table).map Prod.snd) = .ok [full.map jsonValue])
    (hcolumn : parse columnSql = .ok (selectColumn table.name name predicate)) :
    (serially setting j columnSql m).1 = .ok (.rows [name] [[v]]) ↔
    ReadBack table.columns name v := by
  obtain ⟨k, hfirst⟩ := first_of_zip hfull hpair
  obtain ⟨x, hx, hcases⟩ := inserted_at_first hfull hpair hfirst
  have hread : (full.map jsonValue)[k]? = some (jsonValue x) := by rw [List.getElem?_map, hx]; rfl
  rw [h.serially_column hcolumn hselect hfirst hread]
  simp only [Except.ok.injEq, ResultSet.rows.injEq, true_and, List.cons.injEq, and_true]
  rcases hcases with ⟨hone, rfl⟩ | ⟨hmany, hdefault⟩
  · simp only [ReadBack, hone, jsonValue_eq_iff, true_and, not_true_eq_false, false_and, or_false]
  · obtain ⟨c, hc, hdefault'⟩ := Option.bind_eq_some_iff.mp hdefault
    have hvalid := hdefaults c (List.mem_of_find?_eq_some hc) x hdefault'
    simp only [ReadBack, hmany, hdefault, jsonValue_eq_iff.mpr hvalid, false_and, not_false_eq_true,
      true_and, false_or, Option.some.injEq]

theorem assignedValue_single {e : Expression} {v : Value} {k : Nat}
    (hfirst : table.columns.findIdx? (fun c => decide (c.name = name)) = some k)
    (hvalue : valueFromExpression e = .ok v) :
    assignedValue table (OrderedMap.empty.insert name e) k = some v := by
  obtain ⟨hk, hname, -⟩ := List.findIdx?_eq_some_iff_getElem.mp hfirst
  have hname : table.columns[k].name = name := of_decide_eq_true hname
  unfold assignedValue
  rw [List.getElem?_eq_getElem hk, Option.bind_some, hname, if_pos hfirst,
    OrderedMap.find?_insert, if_pos rfl,
    Option.bind_some, hvalue]
  rfl

/-- What a SELECT reads under a name after an UPDATE of the name to `v`. -/
theorem HasTable.updated_iff {row : Row} {e : Expression} {v : Value}
    {columnSql : Bytes} {j k : Nat}
    (h : HasTable setting.codec m table)
    (hfirst : table.columns.findIdx? (fun c => decide (c.name = name)) = some k)
    (hrow : row.length = table.columns.length) (hvalue : valueFromExpression e = .ok v)
    (hselect : selectRows predicate (table.columns.map Column.name)
      ((storedRows setting.codec m table).map Prod.snd) =
        .ok [(replaceAssigned table (OrderedMap.empty.insert name e) row).map jsonValue])
    (hcolumn : parse columnSql = .ok (selectColumn table.name name predicate)) :
    (serially setting j columnSql m).1 = .ok (.rows [name] [[v]]) ↔ InUtf8 v := by
  have hk : k < row.length := hrow ▸ (List.findIdx?_eq_some_iff_getElem.mp hfirst).1
  have hread : ((replaceAssigned table (OrderedMap.empty.insert name e) row).map jsonValue)[k]? =
      some (jsonValue v) := by
    rw [List.getElem?_map, replaceAssigned, List.getElem?_mapIdx, List.getElem?_eq_getElem hk,
      assignedValue_single hfirst hvalue]
    rfl
  rw [h.serially_column hcolumn hselect hfirst hread, ← jsonValue_eq_iff]
  simp only [Except.ok.injEq, ResultSet.rows.injEq, true_and, List.cons.injEq, and_true]

/-- A row that an INSERT has stored lies under its own key. -/
theorem own_of_inserted {names : List Bytes} {es : List Expression} {input full : Row} {pk : Value}
    (hdefaults : ∀ c ∈ table.columns, Given Plain c.default) (hoperands : ∀ e ∈ es, Operand e)
    (hname : table.name ≠ []) (hinput : es.mapM valueFromExpression = .ok input)
    (hfull : makeInsertRow table names input = .ok full) (hpk : table.primaryKeyValue full = .ok pk)
    (hvalid : InUtf8 pk) : Own table (keyFor table pk, full.map jsonValue) := by
  constructor
  · have hkey := primaryKeyValue_map jsonValue hpk
    rw [jsonValue_eq_iff.mpr hvalid] at hkey
    exact keyOf_eq hname hkey
  · intro v hv
    obtain ⟨u, hu, rfl⟩ := List.mem_map.mp hv
    apply plain_jsonValue
    have hplain : ∀ v ∈ input, Plain v := by
      intro v hv
      obtain ⟨e, he, hvalue⟩ := mem_of_mapM_ok hinput hv
      have hordinary := ordinary_value (hoperands e he)
      rwa [hvalue] at hordinary
    have hordinary := makeInsertRow_ordinary (fun _ h => h) hdefaults names hplain
    rw [hfull] at hordinary
    exact hordinary u hu

theorem jsonTable_defaults {createSql : Bytes}
    (hplan : Session.plan createSql = .ok (.createTable schema)) :
    ∀ c ∈ (jsonTable schema).columns, Given InUtf8 c.default ∧ Given Plain c.default := by
  intro c hc
  obtain ⟨d, hd, rfl⟩ := List.mem_map.mp hc
  have hplain := (planned_text hplan).2 d hd
  constructor
  · intro v hv
    obtain ⟨u, -, rfl⟩ := Option.map_eq_some_iff.mp hv
    exact inUtf8_jsonValue u
  · intro v hv
    obtain ⟨u, hu, rfl⟩ := Option.map_eq_some_iff.mp hv
    exact plain_jsonValue (hplain u hu)

section Row
variable {insertSql : Bytes} {names : List Bytes} {es : List Expression}
    {e : Expression} {v : Value}
  {result : ResultSet} {s₁ : Sys} {i : Nat}
  (hc : ReadsAs setting.codec jsonValue) (hrest : AtRest s m) (hb : s.begins < 2 ^ 64 - 4)
  (hdefaults : ∀ c ∈ table.columns, Given InUtf8 c.default ∧ Given Plain c.default)
  (htable : (tables setting.codec (.getTable table.name) m).1 = .ok (some table))
  (hinsert : parse insertSql = .ok (.insert ⟨table.name, names, [es]⟩))
  (hdone : setting.execute i insertSql s = (.ok result, s₁))
  (hrow : Restricts setting table.name predicate s s₁)
  (hpair : (name, e) ∈ names.zip es) (hvalue : valueFromExpression e = .ok v)
include hc hrest hb hdefaults htable hinsert hdone hrow hpair hvalue

/-- When an inserted value is read back. -/
theorem AtRest.inserted_iff {columnSql : Bytes} {j : Nat}
    (hcolumn : parse columnSql = .ok (selectColumn table.name name predicate)) :
    (setting.execute j columnSql s₁).1 = .ok (.rows [name] [[v]]) ↔
    ReadBack table.columns name v := by
  obtain ⟨m₁, hserial₁, hrest₁, hbegins₁⟩ := hrest.step (by omega) hdone
  have hhas := hrow.has hrest (by omega) htable
  obtain ⟨input, full, pk, hinput, hfull, hpk, hhas₁, hin, honly⟩ :=
    hhas.inserted hc hinsert hserial₁
  have hselect := hrow.selects hrest hrest₁ (by omega) (by omega) hhas hhas₁
    (fun p hp => (honly p hp).imp_left (congrArg Prod.snd))
  rw [hrest₁.result (by omega)]
  exact hhas₁.read_back_iff (fun c hc => (hdefaults c hc).1) hfull
    (zip_values hinput hpair hvalue) hselect hcolumn

/-- When an updated value is read back. -/
theorem AtRest.updated_iff {updateSql columnSql : Bytes} {e' : Expression} {v' : Value}
    {predicate' : Option Expression} {s₂ : Sys} {result' : ResultSet} {k l : Nat}
    (hupdate : parse updateSql =
      .ok (.update ⟨table.name, OrderedMap.empty.insert name e', predicate⟩))
    (hvalue' : valueFromExpression e' = .ok v')
    (hdone' : setting.execute k updateSql s₁ = (.ok result', s₂))
    (hkey : Given InUtf8 (insertedKey table names es))
    (hrow' : Restricts setting table.name predicate' s s₂)
    (hcolumn : parse columnSql = .ok (selectColumn table.name name predicate')) :
    (setting.execute l columnSql s₂).1 = .ok (.rows [name] [[v']]) ↔ InUtf8 v' := by
  obtain ⟨m₁, hserial₁, hrest₁, hbegins₁⟩ := hrest.step (by omega) hdone
  obtain ⟨m₂, hserial₂, hrest₂, hbegins₂⟩ := hrest₁.step (by omega) hdone'
  have hhas := hrow.has hrest (by omega) htable
  obtain ⟨input, full, pk, hinput, hfull, hpk, hhas₁, hin, honly⟩ :=
    hhas.inserted hc hinsert hserial₁
  have hselect := hrow.selects hrest hrest₁ (by omega) (by omega) hhas hhas₁
    (fun p hp => (honly p hp).imp_left (congrArg Prod.snd))
  have hown := own_of_inserted (fun c hc => (hdefaults c hc).2)
    ((planned_text (plan_insert hinsert)).2 es (by simp)) hhas.named hinput hfull hpk
    (hkey pk (insertedKey_eq hinput hfull hpk))
  obtain ⟨hhas₂, honly₂⟩ := hhas₁.updated hc hown hselect hupdate hserial₂
  -- The updated row is the only one that was not there before the INSERT.
  have hselect₂ := hrow'.selects hrest hrest₂ (by omega) (by omega) hhas hhas₂
    (fun p hp => (honly₂ p hp).imp_right fun ⟨hold, hne⟩ =>
      (honly p hold).resolve_left fun heq => hne (congrArg Prod.fst heq))
  obtain ⟨n, hfirst⟩ := first_of_zip hfull (zip_values hinput hpair hvalue)
  rw [hrest₂.result (by omega)]
  refine hhas₂.updated_iff hfirst ?_ hvalue' hselect₂ hcolumn
  rw [List.length_map]
  exact (primaryKeyValue_iff.mp hpk).1

end Row

/-- A table that CREATE TABLE can make gets one row by an INSERT with names. A
SELECT of one of the names returns the value that was given for it exactly when
no other column has the name, or the first one that has it has the value as its
default, and the value is UTF-8. After an UPDATE of the name, a SELECT returns
the new value exactly when it is UTF-8. -/
theorem named_value_read_iff {w : World} {s₁ : Sys} {createSql insertSql columnSql : Bytes}
    {names : List Bytes} {es : List Expression} {e : Expression} {v : Value} {result : ResultSet}
    (hc : ReadsAs setting.codec jsonValue) (h : setting.Reaches w) (hfinished : Finished w.sys)
    (hb : w.sys.begins < 2 ^ 64 - 4) (hplan : Session.plan createSql = .ok (.createTable schema))
    (htable : setting.look w.sys (.getTable schema.name) = .ok (some (jsonTable schema)))
    (hinsert : parse insertSql = .ok (.insert ⟨schema.name, names, [es]⟩)) (i j : Nat)
    (hdone : setting.execute i insertSql w.sys = (.ok result, s₁))
    (hrow : Restricts setting schema.name predicate w.sys s₁)
    (hpair : (name, e) ∈ names.zip es) (hvalue : valueFromExpression e = .ok v)
    (hcolumn : parse columnSql = .ok (selectColumn schema.name name predicate)) :
    ((setting.execute j columnSql s₁).1 = .ok (.rows [name] [[v]]) ↔
        ReadBack (jsonTable schema).columns name v) ∧
      ∀ updateSql columnSql' e' v' predicate' s₂ result' k l,
        parse updateSql = .ok (.update ⟨schema.name, OrderedMap.empty.insert name e', predicate⟩) →
        valueFromExpression e' = .ok v' → setting.execute k updateSql s₁ = (.ok result', s₂) →
        Given InUtf8 (insertedKey (jsonTable schema) names es) →
        Restricts setting schema.name predicate' w.sys s₂ →
        parse columnSql' = .ok (selectColumn schema.name name predicate') →
        ((setting.execute l columnSql' s₂).1 = .ok (.rows [name] [[v']]) ↔ InUtf8 v') := by
  obtain ⟨m, hrest⟩ := (reaches_inv h (by omega)).atRest hfinished
  have hdefaults := jsonTable_defaults hplan
  rw [hrest.look (by omega)] at htable
  constructor
  · exact hrest.inserted_iff hc hb hdefaults htable hinsert hdone hrow hpair hvalue hcolumn
  · intro updateSql columnSql' e' v' predicate' s₂ result' k l hupdate hvalue' hdone'
      hkey hrow' hcolumn'
    exact hrest.updated_iff hc hb hdefaults htable hinsert hdone hrow hpair hvalue hupdate
      hvalue' hdone' hkey
      hrow' hcolumn'

end Statements

def insertPair : Bytes := ascii "INSERT INTO t (b, a) VALUES (7, 'x');"

def updatePair : Bytes := ascii "UPDATE t SET b = 8;"

def seven : Sql.Int64 := ⟨7, by decide⟩

def eight : Sql.Int64 := ⟨8, by decide⟩

def pairValues : List Expression := [integerLiteral seven, ⟨.stringLiteral, .string (ascii "x")⟩]

/-- A value that is given by name is read by name, before and after an UPDATE. -/
theorem named_value_read_iff_pair : ∃ w s₁ s₂, jsonSetting.Reaches w ∧
    jsonSetting.execute 1 insertPair w.sys = (.ok (.insert 1), s₁) ∧
    (jsonSetting.execute 2 (ascii "SELECT b FROM t;") s₁).1 =
      .ok (.rows [ascii "b"] [[.integer seven]]) ∧
    jsonSetting.execute 2 updatePair s₁ = (.ok (.update 1), s₂) ∧
    (jsonSetting.execute 3 (ascii "SELECT b FROM t;") s₂).1 =
      .ok (.rows [ascii "b"] [[.integer eight]]) := by
  have hobserve : (jsonSetting.run .init emptyTextTable).bind (fun w =>
      let s₁ := (jsonSetting.execute 1 insertPair w.sys).2
      let s₂ := (jsonSetting.execute 2 updatePair s₁).2
      if w.sys.begins = 1 ∧ allEnded w.sys = true ∧
          jsonSetting.look w.sys (.getTable (ascii "t")) = .ok (some textTable) ∧
          (jsonSetting.execute 1 insertPair w.sys).1 = .ok (.insert 1) ∧
          (jsonSetting.execute 2 updatePair s₁).1 = .ok (.update 1) ∧
          (jsonSetting.execute 1 (ascii "SELECT * FROM t;") w.sys).1 =
            .ok (.rows [ascii "a", ascii "b"] []) ∧
          (jsonSetting.execute 1 (ascii "SELECT * FROM t;") s₁).1 =
            .ok (.rows [ascii "a", ascii "b"] [[.string (ascii "x"), .integer seven]]) ∧
          (jsonSetting.execute 1 (ascii "SELECT * FROM t;") s₂).1 =
            .ok (.rows [ascii "a", ascii "b"] [[.string (ascii "x"), .integer eight]])
      then some () else none) = some () := by decide +kernel
  obtain ⟨w, hrun, hw⟩ := Option.bind_eq_some_iff.mp hobserve
  dsimp only at hw
  split_ifs at hw with hchecks
  obtain ⟨hbegins, hended, htable, hinserted, hupdated, hbefore, hrow, hrow'⟩ := hchecks
  have hreaches : jsonSetting.Reaches w := ⟨_, hrun⟩
  have hall : parse (ascii "SELECT * FROM t;") = .ok (selectAll (ascii "t") none) := by
    decide +kernel
  have hcolumn : parse (ascii "SELECT b FROM t;") =
      .ok (selectColumn (ascii "t") (ascii "b") none) := by
    decide +kernel
  generalize hdone : jsonSetting.execute 1 insertPair w.sys = r at hinserted hupdated hrow hrow'
  obtain ⟨_, s₁⟩ := r
  cases hinserted
  generalize hdone' : jsonSetting.execute 2 updatePair s₁ = r at hupdated hrow'
  obtain ⟨_, s₂⟩ := r
  cases hupdated
  have hplan : Session.plan (ascii "CREATE TABLE t (a STRING PRIMARY KEY, b INT);") =
      .ok (.createTable textTable) := by decide +kernel
  have hinsert : parse insertPair =
      .ok (.insert ⟨ascii "t", [ascii "b", ascii "a"], [pairValues]⟩) := by
    decide +kernel
  have hpair : (ascii "b", integerLiteral seven) ∈ [ascii "b", ascii "a"].zip
      pairValues := List.mem_cons_self
  have hgiven : valueFromExpression (integerLiteral seven) = .ok (.integer seven) := rfl
  obtain ⟨hread, hafter⟩ := named_value_read_iff jsonCodec_reads hreaches
    (finished_of_allEnded (reaches_inv hreaches (by omega)).bound hended) (by omega) hplan htable
    hinsert 1 2 hdone
    ⟨_, 1, _, _, _, hall, hbefore, hrow⟩ hpair hgiven hcolumn
  have hupdate : parse updatePair = .ok (.update ⟨ascii "t",
      OrderedMap.empty.insert (ascii "b") (integerLiteral eight), none⟩) := by decide +kernel
  have hvalue : valueFromExpression (integerLiteral eight) = .ok (.integer eight) := rfl
  have hrestricts : Restricts jsonSetting (ascii "t") none w.sys _ :=
    ⟨_, 1, _, _, _, hall, hbefore, hrow'⟩
  have hinserted : insertedKey (jsonTable textTable) [ascii "b", ascii "a"]
      pairValues = some (.string (ascii "x")) := by
    decide +kernel
  have hkey : Given InUtf8 (some (.string (ascii "x"))) := by
    intro pk hpk
    cases hpk
    exact (by decide : Utf8.Valid (ascii "x"))
  have hone : OneColumn (jsonTable textTable).columns (ascii "b") :=
    (same_column_iff (k := 1) (l := 1) (by decide) (by decide)).mp rfl
  refine ⟨w, s₁, s₂, hreaches, hdone, hread.mpr (.inl ⟨hone, trivial⟩), hdone', ?_⟩
  exact (hafter _ _ _ _ _ _ _ 2 3 hupdate hvalue hdone'
    (hinserted ▸ hkey) hrestricts hcolumn).mpr trivial

/-- Two columns have one name. INSERT gives its value to the second of them, and
SELECT reads the first. -/
theorem value_not_read_back : ∃ w, jsonSetting.Reaches w ∧ Finished w.sys ∧
    (jsonSetting.execute 1 (ascii "INSERT INTO t (a, b) VALUES (1, 2);") w.sys).1 =
    .ok (.insert 1) ∧
    (jsonSetting.execute 2 (ascii "SELECT b FROM t WHERE a = 1;")
      (jsonSetting.execute 1 (ascii "INSERT INTO t (a, b) VALUES (1, 2);") w.sys).2).1 =
      .ok (.rows [ascii "b"] [[.null]]) := by
  have hobserve : (jsonSetting.run .init
      (executed 0 "CREATE TABLE t (a INT PRIMARY KEY, b INT, b INT);" 4)).bind (fun w =>
      if w.sys.begins = 1 ∧ allEnded w.sys = true then
        some ((jsonSetting.execute 1 (ascii "INSERT INTO t (a, b) VALUES (1, 2);") w.sys).1,
          (jsonSetting.execute 2 (ascii "SELECT b FROM t WHERE a = 1;")
            (jsonSetting.execute 1 (ascii "INSERT INTO t (a, b) VALUES (1, 2);") w.sys).2).1)
      else none) = some (.ok (.insert 1), .ok (.rows [ascii "b"] [[.null]])) := by decide +kernel
  obtain ⟨w, hrun, hw⟩ := Option.bind_eq_some_iff.mp hobserve
  split_ifs at hw with hchecks
  obtain ⟨hinserted, hread⟩ := Prod.mk.inj (Option.some.inj hw)
  have hreaches : jsonSetting.Reaches w := ⟨_, hrun⟩
  exact ⟨w, hreaches, finished_of_allEnded (reaches_inv hreaches (by omega)).bound hchecks.2,
    hinserted, hread⟩

end SpaceDB.Proofs
