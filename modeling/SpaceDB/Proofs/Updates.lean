import SpaceDB.Proofs.Assignments
import SpaceDB.Proofs.Deletes

namespace SpaceDB.Proofs
open Lib Storage Sql Engine

variable {codec : Codec} {m m' : Contents} {table : Table} {row : Row}

/-- A row that was moved has found its new key free. -/
theorem moveRow_ok {old pk : Value} {key newKey : Bytes} (hkey : rowKey table.name old = .ok key)
    (hrun : (KVTransaction.moveRow table old pk newKey).run direct m = (.ok (), m')) :
    old.equal pk = true ∧ m' = m ∨ m.find? newKey = none ∧ m' = m.erase key := by
  unfold KVTransaction.moveRow at hrun
  cases hequal : old.equal pk with
  | true =>
    rw [hequal] at hrun
    cases hrun
    exact .inl ⟨rfl, rfl⟩
  | false =>
    rw [hequal] at hrun
    obtain ⟨oldKey, hold, hrun⟩ := Prog.run_ofExcept_bind_inv direct hrun
    rw [hkey] at hold
    cases hold
    obtain ⟨existing, m₁, hget, hrun⟩ := Prog.run_bind_inv direct hrun
    have hget := kv_wrap_inv hget
    rw [run_mvcc] at hget
    cases hget
    cases hfind : m.find? newKey with
    | some encoded =>
      rw [hfind] at hrun
      cases hrun
    | none =>
      rw [hfind] at hrun
      have hdelete := kv_wrap_inv hrun
      rw [run_mvcc] at hdelete
      cases hdelete
      exact .inr ⟨rfl, rfl⟩

/-- The row that an update has stored has its own key, which was that of the
old row or free. -/
theorem updateRow_ok {old : Value} {key : Bytes} (hplain : ∀ v ∈ row, Plain v) (hold : Plain old)
    (hkey : rowKey table.name old = .ok key)
    (hrun : tables codec (.updateRow table old row) m = (.ok (), m')) :
    ∃ newKey encoded, validateRow table row = .ok () ∧ keyOf table row = .ok newKey ∧
      codec.encodeRow row = .ok encoded ∧ m' = move m key newKey encoded ∧
      (newKey = key ∨ m.find? newKey = none) := by
  change (KVTransaction.updateRow codec table old row).run direct m = _ at hrun
  simp only [KVTransaction.updateRow, Prog.bind_eq] at hrun
  obtain ⟨⟨⟩, hvalid, hrun⟩ := Prog.run_ofExcept_bind_inv direct hrun
  obtain ⟨pk, hpk, hrun⟩ := Prog.run_ofExcept_bind_inv direct hrun
  obtain ⟨newKey, hnew, hrun⟩ := Prog.run_ofExcept_bind_inv direct hrun
  obtain ⟨⟨⟩, m₁, hmove, hrun⟩ := Prog.run_bind_inv direct hrun
  obtain ⟨encoded, hcoded, hrun⟩ := coded_bind_inv hrun
  rw [run_mvcc] at hrun
  cases hrun
  have hkeyOf : keyOf table row = .ok newKey := by
    unfold keyOf
    rw [hpk]
    exact hnew
  refine ⟨newKey, encoded, hvalid, hkeyOf, hcoded, ?_⟩
  rcases moveRow_ok hkey hmove with ⟨hequal, rfl⟩ | ⟨hfree, rfl⟩
  · have hpk' : Plain pk := hplain pk (primaryKeyValue_mem hpk)
    obtain rfl := plain_equal hold hpk' hequal
    rw [hkey] at hnew
    cases hnew
    exact ⟨(OrderedMap.insert_erase m₁ key encoded).symm, .inl rfl⟩
  · exact ⟨rfl, .inr hfree⟩

structure Own (table : Table) (p : Bytes × Row) : Prop where
  key : keyOf table p.2 = .ok p.1
  plain : ∀ v ∈ p.2, Plain v

/-- What the resolved assignments of an UPDATE make of a row. -/
structure Changes (table : Table) (as : List (Nat × Value)) (change : Row → Row) : Prop where
  applied : ∀ {row : Row}, row.length = table.columns.length →
    as.foldlM (fun row a => assign row a.1 a.2) row = .ok (change row)
  plain : ∀ {row : Row}, (∀ v ∈ row, Plain v) → ∀ v ∈ change row, Plain v

section Loop
variable {as : List (Nat × Value)} {change : Row → Row} {i n : Nat} {p : Bytes × Row}
  {todo : List (Bytes × Row)}

/-- One round of the loop of an UPDATE. -/
theorem updateRows_cons_ok (hchange : Changes table as change) (hown : Own table p)
    {rows : List Row}
    (hrun : (updateRows table as i (p.2 :: rows)).run (tables codec) m = (.ok n, m')) :
    ∃ new encoded, keyOf table (change p.2) = .ok new ∧ codec.encodeRow (change p.2) = .ok encoded ∧
      (change p.2).length = table.columns.length ∧ (new = p.1 ∨ m.find? new = none) ∧
      (updateRows table as (i + 1) rows).run (tables codec) (move m p.1 new encoded) =
      (.ok n, m') := by
  simp only [updateRows, Prog.bind_eq] at hrun
  obtain ⟨old, hold, hrun⟩ := Prog.run_ofExcept_bind_inv _ hrun
  obtain ⟨updated, hupdated, hrun⟩ := Prog.run_ofExcept_bind_inv _ hrun
  obtain ⟨⟨⟩, m₁, hupdate, hrun⟩ := Prog.run_bind_inv _ hrun
  have hold := outcome_wrap_ok hold
  rw [hchange.applied (primaryKeyValue_iff.mp hold).1] at hupdated
  cases hupdated
  obtain ⟨pk, hpk, hkey⟩ := keyOf_ok hown.key
  rw [hold] at hpk
  cases hpk
  rw [run_wrap, run_txn, Prod.mk.injEq] at hupdate
  obtain ⟨new, encoded, hvalid, hnew, hcoded, rfl, hfree⟩ :=
    updateRow_ok (hchange.plain hown.plain) (hown.plain _ (primaryKeyValue_mem hold)) hkey
      (Prod.ext (outcome_wrap_ok hupdate.1) hupdate.2)
  exact ⟨new, encoded, hnew, hcoded, validateRow_length hvalid, hfree, hrun⟩

/-- A row that is not yet updated is still there after the update of another. -/
theorem mem_storedRows_other {new encoded : Bytes} {q : Bytes × Row} (hnew : rowStart table <+: new)
    (hdecoded : codec.decodeRow encoded = .ok row) (hfree : new = p.1 ∨ m.find? new = none)
    (hq : q ∈ storedRows codec m table) (hne : q.1 ≠ p.1) :
    q ∈ storedRows codec (move m p.1 new encoded) table := by
  rw [(storedRows_move hnew hdecoded hfree).mem_iff, List.mem_cons, List.mem_filter]
  exact .inr ⟨hq, by simpa using hne⟩

/-- The loop of an UPDATE loses no row and doubles none: each row that it is
given is replaced, and the others stay. -/
theorem updateRows_ok (hc : Faithful codec) (hchange : Changes table as change)
    (h : HasTable codec m table) (hown : ∀ p ∈ todo, Own table p)
    (hstored : ∀ p ∈ todo, p ∈ storedRows codec m table) (hnodup : (todo.map Prod.fst).Nodup)
    (hrun : (updateRows table as i (todo.map Prod.snd)).run (tables codec) m = (.ok n, m')) :
    n = i + todo.length ∧ HasTable codec m' table ∧
      ((storedRows codec m' table).map Prod.snd).Perm
        (((storedRows codec m table).filter fun p =>
          decide (p.1 ∉ todo.map Prod.fst)).map Prod.snd ++
          todo.map fun p => change p.2) := by
  induction todo generalizing i m with
  | nil =>
    cases hrun
    exact ⟨rfl, h, by simp⟩
  | cons p todo ih =>
    obtain ⟨hp, hrest⟩ := List.forall_mem_cons.mp hown
    obtain ⟨hpm, hrestm⟩ := List.forall_mem_cons.mp hstored
    rw [List.map_cons, List.nodup_cons] at hnodup
    obtain ⟨hfirst, hnodup⟩ := hnodup
    rw [List.map_cons] at hrun
    obtain ⟨new, encoded, hnew, hcoded, hlength, hfree, hrun⟩ := updateRows_cons_ok hchange hp hrun
    have hdecoded := hc.row hcoded
    have hstart := keyOf_start hnew
    have hother : ∀ q ∈ todo, q.1 ≠ p.1 := fun q hq heq => hfirst (heq ▸ List.mem_map_of_mem hq)
    obtain ⟨hcount, htable, hperm⟩ := ih (h.move (keyOf_start hp.key) hstart hdecoded hlength) hrest
      (fun q hq => mem_storedRows_other hstart hdecoded hfree (hrestm q hq)
        (hother q hq)) hnodup hrun
    refine ⟨by rw [hcount, List.length_cons]; omega, htable, hperm.trans ?_⟩
    -- The new key is that of no row that is still to come.
    have hlater : new ∉ todo.map Prod.fst := by
      intro hin
      obtain ⟨q, hq, rfl⟩ := List.mem_map.mp hin
      obtain ⟨_, -, hfind, -⟩ := mem_storedRows.mp (hrestm q hq)
      rcases hfree with heq | hnone
      · exact hother q hq heq
      · rw [hnone] at hfind
        cases hfind
    have hkept : ((storedRows codec (move m p.1 new encoded) table).filter
        fun q => decide (q.1 ∉ todo.map Prod.fst)).Perm
          ((new, change p.2) :: (storedRows codec m table).filter
            fun q => decide (q.1 ∉ (p :: todo).map Prod.fst)) := by
      refine ((storedRows_move hstart hdecoded hfree).filter _).trans ?_
      rw [List.filter_cons_of_pos (by simpa using hlater), List.filter_filter]
      refine .cons _ (.of_eq (List.filter_congr fun q _ => ?_))
      rw [Bool.eq_iff_iff, Bool.and_eq_true, decide_eq_true_iff, decide_eq_true_iff,
        decide_eq_true_iff,
        List.map_cons, List.mem_cons, not_or, and_comm]
    refine ((hkept.map Prod.snd).append_right _).trans ?_
    rw [List.map_cons, List.cons_append, List.map_cons]
    exact List.perm_middle.symm

/-- When every row gets the same primary key, there is only one to update, and
the key is its own or free. -/
theorem updateRows_same_key (hchange : Changes table as change)
    (hown : ∀ q ∈ p :: todo, Own table q) (hstored : ∀ q ∈ p :: todo, q ∈ storedRows codec m table)
    (hnodup : ((p :: todo).map Prod.fst).Nodup) {key : Bytes}
    (hsame : ∀ q ∈ p :: todo, keyOf table (change q.2) = .ok key)
    (hrun : (updateRows table as i ((p :: todo).map Prod.snd)).run (tables codec) m = (.ok n, m')) :
    todo = [] ∧ (key = p.1 ∨ m.find? key = none) := by
  obtain ⟨hp, hrest⟩ := List.forall_mem_cons.mp hown
  obtain ⟨new, encoded, hnew, -, -, hfree, hrun⟩ := updateRows_cons_ok hchange hp hrun
  rw [hsame p List.mem_cons_self] at hnew
  cases hnew
  refine ⟨?_, hfree⟩
  cases todo with
  | nil => rfl
  | cons q todo =>
    obtain ⟨hq, -⟩ := List.forall_mem_cons.mp hrest
    obtain ⟨new, encoded', hnew, -, -, hfree', -⟩ := updateRows_cons_ok hchange hq hrun
    rw [hsame q (by simp)] at hnew
    cases hnew
    -- The first row has taken the key, so it has to be that of the second row.
    rcases hfree' with rfl | hnone
    · obtain ⟨_, -, hfind, -⟩ := mem_storedRows.mp (hstored q (by simp))
      rcases hfree with heq | hnone
      · simp [heq] at hnodup
      · rw [hnone] at hfind
        cases hfind
    · rw [find?_move, if_pos rfl] at hnone
      cases hnone

end Loop

section Statements
variable {setting : Setting} {walk : Walk} {sql name : Bytes} {predicate : Option Expression}
  {assignments : OrderedMap Bytes Expression} {result : ResultSet}

theorem plan_update (h : parse sql = .ok (.update ⟨name, assignments, predicate⟩)) :
    Session.plan sql = .ok (.update name (filtered (.scan name) predicate) assignments) := by
  unfold Session.plan
  rw [h]
  rfl

/-- The parts of an UPDATE that has succeeded. -/
theorem HasTable.update_ok (h : HasTable codec m table)
    (hrun : (Sql.execute walk
      (.update table.name (filtered (.scan table.name) predicate) assignments)).run
      (tables codec) m = (.ok result, m')) :
    ∃ as selected n, (walk assignments.entries).mapM (resolveAssignment table) = .ok as ∧
      selectRows predicate (table.columns.map Column.name)
        ((storedRows codec m table).map Prod.snd) =
        .ok selected ∧
      result = .update n ∧ (updateRows table as 0 selected).run (tables codec) m = (.ok n, m') := by
  unfold Sql.execute at hrun
  rw [Prog.bind_eq, Prog.run_bind_ok _ (loadTable_run h.getTable)] at hrun
  obtain ⟨as, has, hrun⟩ := Prog.run_ofExcept_bind_inv _ hrun
  rw [Prog.bind_eq, Prog.run_bind, h.source_run] at hrun
  cases hselect : selectRows predicate (table.columns.map Column.name)
      ((storedRows codec m table).map Prod.snd) with
  | error e =>
    rw [hselect] at hrun
    cases hrun
  | ok selected =>
    rw [hselect] at hrun
    obtain ⟨_, ⟨⟩, hrun⟩ := Prog.run_ofExcept_bind_inv _ hrun
    obtain ⟨n, m₁, hloop, hrun⟩ := Prog.run_bind_inv _ hrun
    cases hrun
    exact ⟨as, selected, n, has, rfl, rfl, hloop⟩

theorem resolved_changes {entries : List (Bytes × Expression)} {as : List (Nat × Value)}
    (hwalk : entries.Perm assignments.entries) (hoperands : ∀ a ∈ assignments.entries, Operand a.2)
    (h : entries.mapM (resolveAssignment table) = .ok as) :
    Changes table as (replaceAssigned table assignments) :=
  ⟨fun hrow => resolved_foldlM hwalk h hrow, fun hrow => replaceAssigned_plain hoperands hrow⟩

/-- The loop of a successful UPDATE, over the selected rows with their keys. -/
structure UpdateLoop (codec : Codec) (table : Table) (assignments : OrderedMap Bytes Expression)
    (predicate : Option Expression) (m m' : Contents) (entries : List (Bytes × Expression))
    (as : List (Nat × Value)) (todo : List (Bytes × Row)) (n : Nat) : Prop where
  resolved : entries.mapM (resolveAssignment table) = .ok as
  changes : Changes table as (replaceAssigned table assignments)
  todo_eq : todo = (storedRows codec m table).filter
    (fun p => holdsFor predicate (table.columns.map Column.name) p.2)
  selected : selectRows predicate (table.columns.map Column.name)
    ((storedRows codec m table).map Prod.snd) = .ok (todo.map Prod.snd)
  own : ∀ p ∈ todo, Own table p
  run : (updateRows table as 0 (todo.map Prod.snd)).run (tables codec) m = (.ok n, m')

section UpdateLoop
variable {entries : List (Bytes × Expression)} {as : List (Nat × Value)}
    {todo : List (Bytes × Row)} {n : Nat}

theorem UpdateLoop.stored
    (h : UpdateLoop codec table assignments predicate m m' entries as todo n) :
    ∀ p ∈ todo, p ∈ storedRows codec m table :=
  fun _ hp => (List.mem_filter.mp (h.todo_eq ▸ hp)).1

theorem UpdateLoop.nodup (h : UpdateLoop codec table assignments predicate m m' entries as todo n) :
    (todo.map Prod.fst).Nodup := by
  rw [h.todo_eq]
  exact List.pairwise_map.mpr (((storedRows_sorted _ _ _).filter _).imp ne_of_lt)

/-- After an UPDATE the selected rows are replaced and the others are as they were. -/
theorem UpdateLoop.rows (h : UpdateLoop codec table assignments predicate m m' entries as todo n)
    (hc : Faithful codec) (htable : HasTable codec m table) :
    n = (todo.map Prod.snd).length ∧ HasTable codec m' table ∧
      ((storedRows codec m' table).map Prod.snd).Perm
        (((storedRows codec m table).map Prod.snd).filter
          (fun row => decide (row ∉ todo.map Prod.snd)) ++
          (todo.map Prod.snd).map (replaceAssigned table assignments)) := by
  obtain ⟨hcount, htable', hperm⟩ := updateRows_ok hc h.changes htable h.own h.stored h.nodup h.run
  refine ⟨by rw [hcount, List.length_map, Nat.zero_add], htable', hperm.trans (.of_eq ?_)⟩
  rw [List.map_map, ← filter_not_selected (selectRows_ok h.selected), ← unselected_rows,
    ← h.todo_eq]
  rfl

end UpdateLoop

theorem serially_update {i : Nat} (hstore : RowStore setting.codec m.find?)
    (ht : StoredTable setting.codec m.find? name table)
    (hupdate : parse sql = .ok (.update ⟨name, assignments, predicate⟩))
    (hrun : serially setting i sql m = (.ok result, m')) :
    ∃ as todo n, result = .update n ∧ UpdateLoop setting.codec table assignments predicate m m'
      (setting.walks.order i assignments.entries) as todo n := by
  have hplan := plan_update hupdate
  obtain ⟨hname, -, hoperands⟩ := planned_text hplan
  obtain ⟨htable, -⟩ := hstore.hasTable ht hname.ne_nil
  obtain rfl := ht.ok.named
  obtain ⟨as, selected, n, has, hselect, hresult, hloop⟩ :=
    htable.update_ok (serially_inv hplan hrun)
  have hselected : selected = ((storedRows setting.codec m table).filter
      (fun p => holdsFor predicate (table.columns.map Column.name) p.2)).map Prod.snd := by
    rw [selectRows_ok hselect, List.filter_map]
    rfl
  subst hselected
  refine ⟨as, _, n, hresult, has, resolved_changes (setting.walks.perm i _) hoperands has,
    rfl, hselect, ?_,
    hloop⟩
  intro p hp
  obtain ⟨encoded, hrow⟩ := hstore.stored ht hname.ne_nil (List.mem_filter.mp hp).1
  exact ⟨hrow.keyOf, hrow.plain⟩

/-- A successful UPDATE of the primary key has selected at most one row, and no
other row has the new key. -/
theorem UpdateLoop.key {i : Nat} {column : Bytes} {e : Expression} {index : Nat}
    {as : List (Nat × Value)} {todo : List (Bytes × Row)} {n : Nat}
    (h : UpdateLoop codec table assignments predicate m m'
      (setting.walks.order i assignments.entries) as todo n)
    (hname : table.name ≠ []) (hkeyed : Keyed codec m table)
    (hassigned : assignments.find? column = some e) (hindex : table.columnIndex column = .ok index)
    (hkey : keyColumn table = some index) :
    todo = [] ∨ ∃ p v, todo = [p] ∧ valueFromExpression e = .ok v ∧
      ∀ q ∈ storedRows codec m table, table.primaryKeyValue q.2 = .ok v → q = p := by
  have hentry := OrderedMap.find?_eq_some.mp hassigned
  obtain ⟨a, -, hresolved⟩ := mapM_ok_mem h.resolved ((setting.walks.perm i _).mem_iff.mpr hentry)
  obtain ⟨hplace, hvalue⟩ := resolveAssignment_ok hresolved
  have hassigned := assignedValue_eq hentry hresolved
  rw [columnIndex_ok hindex, Option.some.injEq] at hplace
  rw [← hplace] at hassigned
  cases todo with
  | nil => exact .inl rfl
  | cons p todo =>
    have hnew := rowKey_eq hname a.2
    have hsame : ∀ q ∈ p :: todo, keyOf table (replaceAssigned table assignments q.2) =
        .ok (keyFor table a.2) := by
      intro q hq
      obtain ⟨pk, hpk, -⟩ := keyOf_ok (h.own q hq).key
      exact keyOf_eq hname
        (primaryKeyValue_replaceAssigned hkey hassigned (primaryKeyValue_iff.mp hpk).1)
    obtain ⟨rfl, hfree⟩ := updateRows_same_key h.changes h.own h.stored h.nodup hsame h.run
    refine .inr ⟨p, a.2, rfl, hvalue, ?_⟩
    intro q hq hpk
    obtain ⟨pk, hpk', hqkey⟩ := keyOf_ok (hkeyed q hq)
    rw [hpk, Except.ok.injEq] at hpk'
    rw [← hpk', hnew, Except.ok.injEq] at hqkey
    obtain ⟨_, -, hfind, -⟩ := mem_storedRows.mp hq
    rcases hfree with hp | hnone
    · exact storedRows_unique hq (h.stored p (by simp)) (hqkey.symm.trans hp)
    · rw [← hqkey, hnone] at hfind
      cases hfind

/-- An UPDATE that runs alone replaces the rows that a SELECT with the same
WHERE clause returns. It gives a primary key to one row at most, and only when
no other row has it. -/
theorem update_replaces_selected {w : World} {updateSql selectSql allSql : Bytes}
    (hc : Faithful setting.codec) (h : setting.Reaches w) (hfinished : Finished w.sys)
    (hb : w.sys.begins < 2 ^ 64 - 3)
    (htable : setting.look w.sys (.getTable name) = .ok (some table))
    (hupdate : parse updateSql = .ok (.update ⟨name, assignments, predicate⟩))
    (hselect : parse selectSql = .ok (selectAll name predicate))
    (hall : parse allSql = .ok (selectAll name none)) (i j k l : Nat) :
    (∀ r, (setting.execute i updateSql w.sys).1 = .ok r → ∃ columns rows selected after,
        (setting.execute j selectSql w.sys).1 = .ok (.rows columns selected) ∧
        r = .update selected.length ∧
        (setting.execute k allSql w.sys).1 = .ok (.rows columns rows) ∧
        (setting.execute l allSql (setting.execute i updateSql w.sys).2).1 =
        .ok (.rows columns after) ∧
        after.Perm (rows.filter (fun row => decide (row ∉ selected)) ++
          selected.map (replaceAssigned table assignments))) ∧
      ∀ columns rows selected column e index,
        (setting.execute j selectSql w.sys).1 = .ok (.rows columns selected) →
        (setting.execute k allSql w.sys).1 = .ok (.rows columns rows) →
        assignments.find? column = some e → table.columnIndex column = .ok index →
        keyColumn table = some index →
        (2 ≤ selected.length ∨ ∃ row other v, selected = [row] ∧ valueFromExpression e = .ok v ∧
          other ∈ rows ∧ other ≠ row ∧ table.primaryKeyValue other = .ok v) →
        ∃ err, (setting.execute i updateSql w.sys).1 = .error err := by
  obtain ⟨m, hrest, hstore⟩ := reaches_atRest hc h hfinished (by omega)
  have hb' : w.sys.begins + 1 < 2 ^ 64 - 1 := by omega
  rw [hrest.look hb'] at htable
  obtain ⟨hname, encoded, hfind, hdecoded⟩ := getTable_ok htable
  obtain ⟨table', hdecoded', hok⟩ := hstore.tables hfind
  rw [hdecoded] at hdecoded'
  cases hdecoded'
  have ht : StoredTable setting.codec m.find? name table := ⟨⟨encoded, hfind, hdecoded⟩, hok⟩
  obtain ⟨hhas, hkeyed⟩ := hstore.hasTable ht hname
  obtain rfl := hok.named
  have hrows : serially setting k allSql m = (.ok (.rows (table.columns.map Column.name)
      ((storedRows setting.codec m table).map Prod.snd)), m) := hhas.serially_select hall rfl
  rw [hrest.result hb', hrest.result hb', hrest.result hb', hrows]
  constructor
  · intro r hr
    have hrun : serially setting i updateSql m = (.ok r, (serially setting i updateSql m).2) :=
      Prod.ext hr rfl
    obtain ⟨hrest', hbegins⟩ := hrest.after hb' hrun
    obtain ⟨as, todo, n, rfl, hloop⟩ := serially_update hstore ht hupdate hrun
    obtain ⟨rfl, hhas', hperm⟩ := hloop.rows hc hhas
    rw [hhas.serially_select hselect hloop.selected, hrest'.result (by omega),
      hhas'.serially_select hall rfl]
    exact ⟨_, _, _, _, rfl, rfl, rfl, rfl, hperm⟩
  · intro columns rows selected column e index hselected hall' hassigned hindex hkey hclash
    cases hr : (serially setting i updateSql m).1 with
    | error err => exact ⟨err, rfl⟩
    | ok r =>
      exfalso
      obtain ⟨as, todo, n, rfl, hloop⟩ := serially_update hstore ht hupdate (Prod.ext hr rfl)
      rw [hhas.serially_select hselect hloop.selected] at hselected
      cases hselected
      cases hall'
      rcases hloop.key hhas.named hkeyed hassigned hindex hkey with rfl | ⟨p, v, rfl, hv, hsame⟩
      · rcases hclash with hlength | ⟨row, other, v, hone, -⟩
        · simp at hlength
        · cases hone
      · rcases hclash with hlength | ⟨row, other, v', hone, hv', hother, hne, hpk⟩
        · simp at hlength
        · rw [hv] at hv'
          cases hv'
          cases hone
          obtain ⟨q, hq, rfl⟩ := List.mem_map.mp hother
          exact hne (congrArg Prod.snd (hsame q hq hpk))

end Statements

def pairTable : Table :=
  ⟨ascii "t", [⟨ascii "a", .integer, false, none, true⟩,
    ⟨ascii "b", .integer, true, some .null, false⟩]⟩

def integerLiteral (i : Sql.Int64) : Expression := ⟨.integerLiteral, .int64 i⟩

def secondRow : Expression :=
  ⟨.operationExpression, .operation .operationEqual .columnReference (.string (ascii "a"))
    .integerLiteral (.int64 (.wrap 2))⟩

/-- A row moves to a free key, and not to one that is taken. -/
theorem update_replaces_selected_moved : ∃ w, serialSetting.Reaches w ∧ Finished w.sys ∧
    (serialSetting.execute 2 (ascii "UPDATE t SET a = 9, b = 7 WHERE a = 2;") w.sys).1 =
    .ok (.update 1) ∧
    (∃ after, (serialSetting.execute 3 (ascii "SELECT * FROM t;")
        (serialSetting.execute 2 (ascii "UPDATE t SET a = 9, b = 7 WHERE a = 2;") w.sys).2).1 =
        .ok (.rows [ascii "a", ascii "b"] after) ∧
      after.Perm [pairRow ⟨1, by decide⟩ (.integer ⟨10, by decide⟩),
        pairRow ⟨3, by decide⟩ (.integer ⟨10, by decide⟩),
        pairRow ⟨4, by decide⟩ (.integer ⟨20, by decide⟩),
        pairRow ⟨9, by decide⟩ (.integer ⟨7, by decide⟩)]) ∧
    ∃ err, (serialSetting.execute 2 (ascii "UPDATE t SET a = 3 WHERE a = 2;") w.sys).1 =
      .error err := by
  have hobserve : (serialSetting.run .init fourRows).bind (fun w =>
      if w.sys.begins = 2 ∧ allEnded w.sys = true ∧
          serialSetting.look w.sys (.getTable (ascii "t")) = .ok (some pairTable) then
        some ((serialSetting.execute 2 (ascii "UPDATE t SET a = 9, b = 7 WHERE a = 2;") w.sys).1,
          (serialSetting.execute 2 (ascii "SELECT * FROM t WHERE a = 2;") w.sys).1,
          (serialSetting.execute 2 (ascii "SELECT * FROM t;") w.sys).1) else none) =
      some (.ok (.update 1), .ok (.rows [ascii "a", ascii "b"] [pairRow ⟨2, by decide⟩ .null]),
        .ok (.rows [ascii "a", ascii "b"]
          [pairRow ⟨1, by decide⟩ (.integer ⟨10, by decide⟩), pairRow ⟨2, by decide⟩ .null,
            pairRow ⟨3, by decide⟩ (.integer ⟨10, by decide⟩),
            pairRow ⟨4, by decide⟩ (.integer ⟨20, by decide⟩)])) := by
    decide +kernel
  obtain ⟨w, hrun, hw⟩ := Option.bind_eq_some_iff.mp hobserve
  split_ifs at hw with hchecks
  obtain ⟨hbegins, hended, htable⟩ := hchecks
  simp only [Option.some.injEq, Prod.mk.injEq] at hw
  obtain ⟨hdone, hselected, hrows⟩ := hw
  have hreaches : serialSetting.Reaches w := ⟨_, hrun⟩
  have hfinished : Finished w.sys :=
    finished_of_allEnded (reaches_inv hreaches (by omega)).bound hended
  have hselect : parse (ascii "SELECT * FROM t WHERE a = 2;") =
      .ok (selectAll (ascii "t") (some secondRow)) := by
    decide +kernel
  have hall : parse (ascii "SELECT * FROM t;") = .ok (selectAll (ascii "t") none) := by
    decide +kernel
  have hmove : parse (ascii "UPDATE t SET a = 9, b = 7 WHERE a = 2;") = .ok (.update ⟨ascii "t",
      (OrderedMap.empty.insert (ascii "a") (integerLiteral ⟨9, by decide⟩)).insert (ascii "b")
        (integerLiteral ⟨7, by decide⟩), some secondRow⟩) := by decide +kernel
  have hclash : parse (ascii "UPDATE t SET a = 3 WHERE a = 2;") = .ok (.update ⟨ascii "t",
      OrderedMap.empty.insert (ascii "a") (integerLiteral ⟨3, by decide⟩), some secondRow⟩) := by
    decide +kernel
  refine ⟨w, hreaches, hfinished, hdone, ?_, ?_⟩
  · obtain ⟨columns, rows, selected, after, hselected', -, hrows', hafter, hperm⟩ :=
      (update_replaces_selected serialCodec_faithful hreaches hfinished
        (by omega) htable hmove hselect hall
        2 2 2 3).1 _ hdone
    rw [hselected] at hselected'
    rw [hrows] at hrows'
    cases hselected'
    cases hrows'
    exact ⟨after, hafter, hperm⟩
  · refine (update_replaces_selected serialCodec_faithful hreaches hfinished
      (by omega) htable hclash hselect hall
      2 2 2 3).2 _ _ _ (ascii "a")
        (integerLiteral ⟨3, by decide⟩) 0 hselected hrows ?_ ?_ ?_ (.inr ?_)
    · decide +kernel
    · decide +kernel
    · decide +kernel
    · exact ⟨_, pairRow ⟨3, by decide⟩ (.integer ⟨10, by decide⟩),
        .integer ⟨3, by decide⟩, rfl, by decide,
        by simp, by decide, by decide⟩

/-- An UPDATE takes the last version but one, and the SELECT after it does not
find the table. -/
theorem table_lost_after_update : ∃ w, serialSetting.Reaches w ∧ Finished w.sys ∧
    w.sys.begins = 2 ^ 64 - 3 ∧
    (serialSetting.execute 3 (ascii "SELECT * FROM t;") w.sys).1 = .ok (.rows [ascii "a"] []) ∧
    (serialSetting.execute 3 (ascii "UPDATE t SET a = 1;") w.sys).1 = .ok (.update 0) ∧
    ∃ e, (serialSetting.execute 4 (ascii "SELECT * FROM t;")
      (serialSetting.execute 3 (ascii "UPDATE t SET a = 1;") w.sys).2).1 = .error e := by
  obtain ⟨w, hreaches, hfinished, hbegins, hexecute⟩ := reaches_lastWorld
  refine ⟨w, hreaches, hfinished, hbegins, ?_, ?_, ?_⟩
  · rw [(hexecute _ _).1]
    decide +kernel
  · rw [(hexecute _ _).1]
    decide +kernel
  · rw [(hexecute _ _).2]
    exact exists_error (by decide +kernel)

end SpaceDB.Proofs
