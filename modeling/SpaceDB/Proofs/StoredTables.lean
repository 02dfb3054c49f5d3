import SpaceDB.Proofs.ExecutorRuns
import SpaceDB.Proofs.SerialStore

namespace SpaceDB.Proofs
open Lib Storage Sql Engine

def rowStart (table : Table) : Bytes := keyNamespaceRow :: table.name ++ [keySeparator]

def keyFor (table : Table) (pk : Value) : Bytes := rowStart table ++ encodePrimaryKey pk

def keyOf (table : Table) (row : Row) : Outcome Bytes := do
  rowKey table.name (← table.primaryKeyValue row)

/-- The stored rows of a table with their keys, in the order of the keys. -/
def storedRows (codec : Codec) (m : Contents) (table : Table) : List (Bytes × Row) :=
  (under m (rowStart table)).map fun e => (e.1, (codec.decodeRow e.2).toOption.getD [])

/-- The map holds the table, and every row of it can be read. -/
structure HasTable (codec : Codec) (m : Contents) (table : Table) : Prop where
  named : table.name ≠ []
  stored : ∃ encoded, m.find? (keyNamespaceTable :: table.name) = some encoded ∧
    codec.decodeTable encoded = .ok table
  rows : ∀ e ∈ under m (rowStart table), ∃ row, codec.decodeRow e.2 = .ok row ∧
    row.length = table.columns.length

def Keyed (codec : Codec) (m : Contents) (table : Table) : Prop :=
  ∀ p ∈ storedRows codec m table, keyOf table p.2 = .ok p.1

variable {codec : Codec} {m : Contents} {table : Table} {walk : Walk}

section Reading

theorem tableKey_eq {name : Bytes} (h : name ≠ []) :
    tableKey name = .ok (keyNamespaceTable :: name) :=
  if_neg h

theorem rowPrefixKey_eq (h : table.name ≠ []) :
    rowPrefixKey table.name = .ok (rowStart table) := if_neg h

theorem rowKey_eq (h : table.name ≠ []) (pk : Value) :
    rowKey table.name pk = .ok (keyFor table pk) := by
  unfold rowKey
  rw [rowPrefixKey_eq h]
  rfl

theorem keyOf_ok {row : Row} {key : Bytes} (h : keyOf table row = .ok key) :
    ∃ pk, table.primaryKeyValue row = .ok pk ∧ rowKey table.name pk = .ok key := outcome_bind_ok h

theorem keyOf_eq {row : Row} {pk : Value} (hname : table.name ≠ [])
    (h : table.primaryKeyValue row = .ok pk) :
    keyOf table row = .ok (keyFor table pk) := by
  unfold keyOf
  rw [h]
  exact rowKey_eq hname pk

theorem keyOf_start {row : Row} {key : Bytes} (h : keyOf table row = .ok key) :
    rowStart table <+: key := by
  obtain ⟨pk, -, hkey⟩ := keyOf_ok h
  rw [rowKey_ok hkey]
  exact List.prefix_append _ _

theorem rowStart_ne_table (key name : Bytes) (h : rowStart table <+: key) :
    key ≠ keyNamespaceTable :: name := by
  rintro rfl
  have := (List.cons_prefix_cons.mp h).1
  simp [keyNamespaceRow, keyNamespaceTable] at this

theorem getTable_missing {name : Bytes} (hname : name ≠ [])
    (h : m.find? (keyNamespaceTable :: name) = none) :
    tables codec (.getTable name) m = (.ok none, m) := by
  have hget : direct (.get (keyNamespaceTable :: name)) m = (.ok none, m) := by simp [direct, h]
  change (KVTransaction.getTable codec name).run direct m = _
  unfold KVTransaction.getTable
  rw [tableKey_eq hname, Prog.ofExcept_ok, Prog.bind_eq, Prog.bind_done, Prog.bind_eq,
    Prog.run_bind_ok _ (mvcc_run hget)]
  rfl

theorem getTable_run {name encoded : Bytes} (hname : name ≠ [])
    (hfind : m.find? (keyNamespaceTable :: name) = some encoded)
    (hdecoded : codec.decodeTable encoded = .ok table) :
    tables codec (.getTable name) m = (.ok (some table), m) := by
  have hget : direct (.get (keyNamespaceTable :: name)) m = (.ok (some encoded), m) := by
    simp [direct, hfind]
  change (KVTransaction.getTable codec name).run direct m = _
  unfold KVTransaction.getTable
  rw [tableKey_eq hname, Prog.ofExcept_ok, Prog.bind_eq, Prog.bind_done, Prog.bind_eq,
    Prog.run_bind_ok _ (mvcc_run hget)]
  simp only [hdecoded]
  rfl

theorem HasTable.getTable (h : HasTable codec m table) :
    tables codec (.getTable table.name) m = (.ok (some table), m) := by
  obtain ⟨encoded, hstored, hdecoded⟩ := h.stored
  exact getTable_run h.named hstored hdecoded

/-- A table that GetTable returns is stored under that name. -/
theorem getTable_ok {name : Bytes} (h : (tables codec (.getTable name) m).1 = .ok (some table)) :
    name ≠ [] ∧ ∃ encoded, m.find? (keyNamespaceTable :: name) = some encoded ∧
      codec.decodeTable encoded = .ok table := by
  have hrun : (KVTransaction.getTable codec name).run direct m =
      (.ok (some table), (tables codec (.getTable name) m).2) := Prod.ext h rfl
  simp only [KVTransaction.getTable, Prog.bind_eq] at hrun
  obtain ⟨key, hkey, hrun⟩ := Prog.run_ofExcept_bind_inv _ hrun
  have hname : name ≠ [] := by
    rintro rfl
    cases hkey
  obtain rfl := tableKey_ok hkey
  obtain ⟨found, m₁, hget, hrun⟩ := Prog.run_bind_inv _ hrun
  rw [run_mvcc] at hget
  cases hget
  cases hfind : m.find? (keyNamespaceTable :: name) with
  | none =>
    rw [hfind] at hrun
    cases hrun
  | some encoded =>
    rw [hfind] at hrun
    obtain ⟨decoded, hdecoded, hrun⟩ := coded_bind_inv hrun
    cases congrArg Prod.fst hrun
    exact ⟨hname, encoded, rfl, hdecoded⟩

theorem decodeRows_eq {es : List (Bytes × Bytes)}
    (h : ∀ e ∈ es, ∃ row, codec.decodeRow e.2 = .ok row ∧
      row.length = table.columns.length) (i : Nat) :
    KVTransaction.decodeRows codec table i (es.map fun e => ⟨e.1, some e.2⟩) =
      .ok (es.map fun e => (codec.decodeRow e.2).toOption.getD []) := by
  induction es generalizing i with
  | nil => rfl
  | cons e es ih =>
    obtain ⟨⟨row, hrow, hlength⟩, hrest⟩ := List.forall_mem_cons.mp h
    have hentry : KVTransaction.decodeEntry codec table i ⟨e.1, some e.2⟩ = .ok row := by
      unfold KVTransaction.decodeEntry
      rw [Option.getD_some, hrow]
      rfl
    rw [List.map_cons, KVTransaction.decodeRows, hentry, List.map_cons, hrow]
    change (if row.length ≠ table.columns.length then _ else _) = _
    rw [if_neg (not_not.mpr hlength), ih hrest (i + 1)]
    rfl

/-- ScanTable returns the stored rows in the order of their keys. -/
theorem HasTable.scanTable (h : HasTable codec m table) :
    tables codec (.scanTable table) m = (.ok ((storedRows codec m table).map Prod.snd), m) := by
  change (KVTransaction.scanTable codec table).run direct m = _
  unfold KVTransaction.scanTable
  rw [rowPrefixKey_eq h.named, Prog.ofExcept_ok, Prog.bind_eq, Prog.bind_done, Prog.bind_eq,
    Prog.run_bind_ok _ (kv_wrap_ok (mvcc_run (c := .scanPrefix (rowStart table)) rfl) _ _),
    decodeRows_eq h.rows, Prog.run_ofExcept, storedRows, List.map_map]
  rfl

theorem decodeEntry_ok {e : Bytes × Bytes} {i : Nat} {row : Row}
    (h : KVTransaction.decodeEntry codec table i ⟨e.1, some e.2⟩ = .ok row) :
    codec.decodeRow e.2 = .ok row := by
  unfold KVTransaction.decodeEntry at h
  rw [Option.getD_some] at h
  cases hresult : codec.decodeRow e.2 with
  | ok row' =>
    rw [hresult] at h
    cases h
    rfl
  | error err =>
    rw [hresult] at h
    cases h

theorem decodeRows_ok {es : List (Bytes × Bytes)} {i : Nat} {rows : List Row}
    (h : KVTransaction.decodeRows codec table i (es.map fun e => ⟨e.1, some e.2⟩) = .ok rows) :
    ∀ e ∈ es, ∃ row, codec.decodeRow e.2 = .ok row ∧ row.length = table.columns.length := by
  induction es generalizing i rows with
  | nil => simp
  | cons e es ih =>
    obtain ⟨row, hrow, h⟩ := outcome_bind_ok h
    split_ifs at h with hlength
    · cases h
    · obtain ⟨rest, hrest, -⟩ := outcome_bind_ok h
      exact List.forall_mem_cons.mpr ⟨⟨row, decodeEntry_ok hrow, not_not.mp hlength⟩, ih hrest⟩

/-- A table that can be scanned. -/
theorem hasTable_of_scan {rows : List Row}
    (htable : (tables codec (.getTable table.name) m).1 = .ok (some table))
    (hscan : (tables codec (.scanTable table) m).1 = .ok rows) :
    HasTable codec m table ∧ rows = (storedRows codec m table).map Prod.snd := by
  obtain ⟨hname, hstored⟩ := getTable_ok htable
  have hrun : (KVTransaction.scanTable codec table).run direct m =
      (.ok rows, (tables codec (.scanTable table) m).2) := Prod.ext hscan rfl
  simp only [KVTransaction.scanTable, Prog.bind_eq] at hrun
  obtain ⟨start, hstart, hrun⟩ := Prog.run_ofExcept_bind_inv _ hrun
  rw [rowPrefixKey_eq hname] at hstart
  cases hstart
  obtain ⟨entries, m₁, hentries, hrun⟩ := Prog.run_bind_inv _ hrun
  have hentries := kv_wrap_inv hentries
  rw [run_mvcc] at hentries
  cases hentries
  have hrows := congrArg Prod.fst hrun
  rw [Prog.run_ofExcept] at hrows
  have h : HasTable codec m table := ⟨hname, hstored, decodeRows_ok hrows⟩
  rw [h.scanTable] at hscan
  exact ⟨h, (Except.ok.inj hscan).symm⟩

end Reading

theorem mem_storedRows {p : Bytes × Row} : p ∈ storedRows codec m table ↔
    ∃ encoded, rowStart table <+: p.1 ∧ m.find? p.1 = some encoded ∧
      p.2 = (codec.decodeRow encoded).toOption.getD [] := by
  unfold storedRows
  rw [List.mem_map]
  constructor
  · rintro ⟨e, he, rfl⟩
    obtain ⟨hstart, hfind⟩ := mem_under.mp he
    exact ⟨e.2, hstart, hfind, rfl⟩
  · rintro ⟨encoded, hstart, hfind, hrow⟩
    exact ⟨(p.1, encoded), mem_under.mpr ⟨hstart, hfind⟩, Prod.ext rfl hrow.symm⟩

theorem storedRows_sorted (codec : Codec) (m : Contents) (table : Table) :
    (storedRows codec m table).Pairwise (fun a b => a.1 < b.1) :=
  List.pairwise_map.mpr (under_sorted m (rowStart table))

/-- A key has one row. -/
theorem storedRows_unique {p q : Bytes × Row} (hp : p ∈ storedRows codec m table)
    (hq : q ∈ storedRows codec m table) (hkey : p.1 = q.1) : p = q := by
  obtain ⟨a, -, ha, hpa⟩ := mem_storedRows.mp hp
  obtain ⟨b, -, hb, hqb⟩ := mem_storedRows.mp hq
  rw [hkey, hb] at ha
  cases ha
  exact Prod.ext hkey (hpa.trans hqb.symm)

theorem storedRows_keys {rows : List (Bytes × Row)} (h : ∀ p ∈ rows, p ∈ storedRows codec m table) :
    ∀ k ∈ rows.map Prod.fst, rowStart table <+: k := by
  intro k hk
  obtain ⟨p, hp, rfl⟩ := List.mem_map.mp hk
  obtain ⟨-, hstart, -⟩ := mem_storedRows.mp (h p hp)
  exact hstart

section Moving
variable {row : Row}

/-- A row moves from one key to another, or is replaced in its place. -/
def move (m : Contents) (old new encoded : Bytes) : Contents := (m.erase old).insert new encoded

theorem find?_move (m : Contents) (old new encoded key : Bytes) :
    (move m old new encoded).find? key =
      if key = new then some encoded else if key = old then none else m.find? key := by
  unfold move
  rw [OrderedMap.find?_insert, OrderedMap.find?_erase]
  split_ifs <;> rfl

theorem mem_storedRows_move {old new encoded : Bytes} {p : Bytes × Row}
    (hnew : rowStart table <+: new)
    (hdecoded : codec.decodeRow encoded = .ok row) :
    p ∈ storedRows codec (move m old new encoded) table ↔
      p = (new, row) ∨ p ∈ storedRows codec m table ∧ p.1 ≠ new ∧ p.1 ≠ old := by
  rw [mem_storedRows, mem_storedRows, find?_move]
  by_cases hp : p.1 = new
  · rw [if_pos hp]
    constructor
    · rintro ⟨_, -, ⟨⟩, hrow⟩
      rw [hdecoded] at hrow
      exact .inl (Prod.ext hp hrow)
    · rintro (rfl | ⟨-, hne, -⟩)
      · exact ⟨encoded, hnew, rfl, by rw [hdecoded]; rfl⟩
      · exact absurd hp hne
  · have hother : p ≠ (new, row) := fun h => hp (congrArg Prod.fst h)
    rw [if_neg hp]
    by_cases hold : p.1 = old
    · simp [hold, hother]
    · simp [hp, hold, hother]

theorem storedRows_nodup (codec : Codec) (m : Contents) (table : Table) :
    (storedRows codec m table).Nodup :=
  (storedRows_sorted codec m table).imp (fun h heq => (ne_of_lt h) (congrArg Prod.fst heq))

/-- A row that moves takes the place of the old one. -/
theorem storedRows_move {old new encoded : Bytes} (hnew : rowStart table <+: new)
    (hdecoded : codec.decodeRow encoded = .ok row) (hfree : new = old ∨ m.find? new = none) :
    (storedRows codec (move m old new encoded) table).Perm
      ((new, row) :: (storedRows codec m table).filter (fun p => decide (p.1 ≠ old))) := by
  have habsent : ∀ p ∈ storedRows codec m table, p.1 ≠ old → p.1 ≠ new := by
    intro p hp hne hkey
    obtain ⟨_, -, hfind, -⟩ := mem_storedRows.mp hp
    rcases hfree with rfl | hnone
    · exact hne hkey
    · rw [hkey, hnone] at hfind
      cases hfind
  rw [List.perm_ext_iff_of_nodup (storedRows_nodup _ _ _) ?_]
  · intro p
    rw [mem_storedRows_move hnew hdecoded, List.mem_cons, List.mem_filter, decide_eq_true_iff]
    refine or_congr_right (and_congr_right fun hp => ?_)
    exact ⟨fun h => h.2, fun h => ⟨habsent p hp h, h⟩⟩
  · rw [List.nodup_cons]
    refine ⟨fun hin => ?_, (storedRows_nodup _ _ _).filter _⟩
    obtain ⟨hp, hne⟩ := List.mem_filter.mp hin
    exact habsent _ hp (of_decide_eq_true hne) rfl

theorem HasTable.move {old new encoded : Bytes} (h : HasTable codec m table)
    (hold : rowStart table <+: old) (hnew : rowStart table <+: new)
    (hdecoded : codec.decodeRow encoded = .ok row) (hlength : row.length = table.columns.length) :
    HasTable codec (move m old new encoded) table := by
  refine ⟨h.named, ?_, ?_⟩
  · obtain ⟨stored, hstored, htable⟩ := h.stored
    refine ⟨stored, ?_, htable⟩
    rw [find?_move, if_neg (rowStart_ne_table _ _ hnew).symm,
      if_neg (rowStart_ne_table _ _ hold).symm, hstored]
  · intro e he
    obtain ⟨hstart, hfind⟩ := mem_under.mp he
    rw [find?_move] at hfind
    split_ifs at hfind with hkey hgone
    · cases hfind
      exact ⟨row, hdecoded, hlength⟩
    · exact h.rows e (mem_under.mpr ⟨hstart, hfind⟩)

end Moving

section Deleting

theorem storedRows_eraseAll (m : Contents) (keys : List Bytes) :
    storedRows codec (m.eraseAll keys) table =
      (storedRows codec m table).filter (fun p => decide (p.1 ∉ keys)) := by
  unfold storedRows under
  rw [OrderedMap.eraseAll_entries, List.filter_filter, List.filter_map, List.filter_filter]
  congr 2
  funext e
  by_cases hin : e.1 ∈ keys <;> simp [hin]

theorem HasTable.eraseAll (h : HasTable codec m table) {keys : List Bytes}
    (hkeys : ∀ k ∈ keys, rowStart table <+: k) : HasTable codec (m.eraseAll keys) table := by
  refine ⟨h.named, ?_, ?_⟩
  · obtain ⟨encoded, hstored, hdecoded⟩ := h.stored
    refine ⟨encoded, ?_, hdecoded⟩
    rw [OrderedMap.find?_eraseAll,
      if_neg (fun hin => rowStart_ne_table _ _ (hkeys _ hin) rfl), hstored]
  · intro e he
    obtain ⟨hstart, hfind⟩ := mem_under.mp he
    rw [OrderedMap.find?_eraseAll] at hfind
    split_ifs at hfind with hin
    exact h.rows e (mem_under.mpr ⟨hstart, hfind⟩)

theorem deleteRow_run {pk : Value} {key : Bytes} (hkey : rowKey table.name pk = .ok key) :
    tables codec (.deleteRow table pk) m = (.ok (), m.erase key) := by
  change (KVTransaction.deleteRow table pk).run direct m = _
  unfold KVTransaction.deleteRow
  rw [hkey, Prog.ofExcept_ok, Prog.bind_eq, Prog.bind_done]
  exact kv_wrap_ok (mvcc_run (c := .delete key) rfl) _ _

/-- The loop of a DELETE removes the key of every row it is given. -/
theorem deleteRows_run {rows : List (Bytes × Row)}
    (hkeys : ∀ p ∈ rows, keyOf table p.2 = .ok p.1) (i : Nat) :
    (deleteRows table i (rows.map Prod.snd)).run (tables codec) m =
      (.ok (i + rows.length), m.eraseAll (rows.map Prod.fst)) := by
  induction rows generalizing i m with
  | nil => rfl
  | cons p rows ih =>
    obtain ⟨hp, hrest⟩ := List.forall_mem_cons.mp hkeys
    obtain ⟨pk, hpk, hkey⟩ := keyOf_ok hp
    have hdelete : ((txn (.deleteRow table pk)).wrap "executor: deleting raw %d: %w"
        [.number (i + 1)]).run (tables codec) m = (.ok (), m.erase p.1) :=
      run_wrap_ok ((run_txn _ m).trans (deleteRow_run hkey)) _ _
    rw [List.map_cons, deleteRows, hpk]
    change ((ExecM.wrap _ _ (txn (.deleteRow table pk))).bind _).run (tables codec) m = _
    rw [Prog.run_bind_ok _ hdelete, ih hrest (i + 1), List.length_cons, Nat.add_right_comm]
    rfl

end Deleting

theorem validateRow_length {row : Row} (h : validateRow table row = .ok ()) :
    row.length = table.columns.length := by
  by_contra hlength
  unfold validateRow at h
  rw [if_pos hlength] at h
  cases h

section RowStores
variable {name : Bytes}

/-- What lies under the keys of a table are rows of it. -/
theorem RowStore.row_under (h : RowStore codec m.find?) (ht : StoredTable codec m.find? name table)
    (hname : name ≠ []) : ∀ e ∈ under m (rowStart table), ∃ row,
    StoredRow codec table e.1 e.2 row := by
  have hnamed := ht.ok.named
  subst hnamed
  intro e he
  obtain ⟨hstart, hfind⟩ := mem_under.mp he
  obtain ⟨rest, hrest⟩ := hstart
  have hkey : keyNamespaceRow :: (table.name ++ [keySeparator] ++ rest) = e.1 := hrest
  rw [← hkey] at hfind
  obtain ⟨name', table', row, htable, hrow⟩ := h.rows hfind
  rw [hkey] at hrow
  -- The key names one table only, so the row belongs to this one.
  obtain ⟨pk, -, hpk⟩ := hrow.key
  have hsame : table.name = table'.name :=
    rowKey_separated ht.ok.separated (htable.ok.named ▸ htable.ok.separated)
      (rowPrefixKey_eq hname) hpk
      ⟨rest, hrest⟩
  obtain ⟨encoded, hstored, hdecoded⟩ := ht.stored
  obtain ⟨encoded', hstored', hdecoded'⟩ := htable.stored
  rw [← htable.ok.named, ← hsame, hstored] at hstored'
  cases hstored'
  rw [hdecoded] at hdecoded'
  cases hdecoded'
  exact ⟨row, hrow⟩

theorem RowStore.stored (h : RowStore codec m.find?) (ht : StoredTable codec m.find? name table)
    (hname : name ≠ []) {p : Bytes × Row} (hp : p ∈ storedRows codec m table) :
    ∃ encoded, StoredRow codec table p.1 encoded p.2 := by
  obtain ⟨e, he, rfl⟩ := List.mem_map.mp hp
  obtain ⟨row, hrow⟩ := h.row_under ht hname e he
  simp only [hrow.decoded, Except.toOption, Option.getD_some]
  exact ⟨e.2, hrow⟩

theorem StoredRow.keyOf {key encoded : Bytes} {row : Row}
    (h : StoredRow codec table key encoded row) :
    keyOf table row = .ok key := by
  obtain ⟨pk, hpk, hkey⟩ := h.key
  unfold SpaceDB.Proofs.keyOf
  rw [hpk]
  exact hkey

/-- A row store has each of its tables, with every row under its own key. -/
theorem RowStore.hasTable (h : RowStore codec m.find?) (ht : StoredTable codec m.find? name table)
    (hname : name ≠ []) : HasTable codec m table ∧ Keyed codec m table := by
  refine ⟨⟨ht.ok.named.symm ▸ hname, ht.ok.named.symm ▸ ht.stored, ?_⟩, ?_⟩
  · intro e he
    obtain ⟨row, hrow⟩ := h.row_under ht hname e he
    exact ⟨row, hrow.decoded, validateRow_length hrow.valid⟩
  · intro p hp
    obtain ⟨encoded, hrow⟩ := h.stored ht hname hp
    exact hrow.keyOf

end RowStores

section Sources
variable {predicate : Option Expression} {columns : List Bytes} {rows selected : List Row}

def selectRows (predicate : Option Expression) (columns : List Bytes) (rows : List Row) :
    Outcome (List Row) :=
  match predicate with
  | none => .ok rows
  | some e => filterRows e columns 0 rows

/-- A WHERE clause holds for a row when it is TRUE. -/
def holdsFor (predicate : Option Expression) (columns : List Bytes) (row : Row) : Bool :=
  predicate.all fun e => decide (evaluateExpression e columns row columns row = .ok (.boolean true))

/-- A filter that does not fail keeps the rows for which the clause holds. -/
theorem filterRows_ok {e : Expression} {i : Nat} (h : filterRows e columns i rows = .ok selected) :
    selected = rows.filter (holdsFor (some e) columns) := by
  induction rows generalizing i selected with
  | nil => exact (Except.ok.inj h).symm
  | cons row rows ih =>
    obtain ⟨value, hvalue, h⟩ := outcome_bind_ok h
    obtain ⟨kept, hkept, h⟩ := outcome_bind_ok h
    have hrow := outcome_wrap_ok hvalue
    cases h
    rw [ih hkept, List.filter_cons]
    by_cases htrue : value = .boolean true
    · rw [if_pos htrue, if_pos (by simp [holdsFor, hrow, htrue])]
    · rw [if_neg htrue, if_neg (by simp [holdsFor, hrow, htrue])]

theorem selectRows_ok (h : selectRows predicate columns rows = .ok selected) :
    selected = rows.filter (holdsFor predicate columns) := by
  cases predicate with
  | none =>
    cases h
    exact (List.filter_eq_self.mpr (fun _ _ => rfl)).symm
  | some e => exact filterRows_ok h

theorem HasTable.source_run (h : HasTable codec m table) :
    (Sql.execute walk (filtered (.scan table.name) predicate)).run (tables codec) m =
      ((selectRows predicate (table.columns.map Column.name)
        ((storedRows codec m table).map Prod.snd)).map
        (.rows (table.columns.map Column.name)), m) := by
  have hscan : (Sql.execute walk (.scan table.name)).run (tables codec) m =
      (.ok (.rows (table.columns.map Column.name) ((storedRows codec m table).map Prod.snd)), m) :=
    scanNode_run h.getTable h.scanTable
  cases predicate with
  | none => exact hscan
  | some e => exact filterNode_run hscan e

/-- Without the table every statement on it fails. -/
theorem loadTable_missing {name : Bytes} (hname : name ≠ [])
    (h : m.find? (keyNamespaceTable :: name) = none) :
    ∃ e, (loadTable name).run (tables codec) m = (.error (.error e), m) := by
  have hcall : ((txn (.getTable name)).wrap "executor: loading table %q: %w" [.bytes name]).run
      (tables codec) m = (.ok none, m) :=
    run_wrap_ok ((run_txn _ m).trans (getTable_missing hname h)) _ _
  exact ⟨_, (Prog.run_bind_ok _ hcall _).trans rfl⟩

theorem source_missing {name : Bytes} (hname : name ≠ [])
    (h : m.find? (keyNamespaceTable :: name) = none) :
    ∃ e, (Sql.execute walk (filtered (.scan name) predicate)).run (tables codec) m =
      (.error (.error e), m) := by
  obtain ⟨e, hload⟩ : ∃ e, (loadTable name).run (tables codec) m = (.error (.error e), m) :=
    loadTable_missing hname h
  have hscan : (Sql.execute walk (.scan name)).run (tables codec) m = (.error (.error e), m) := by
    unfold Sql.execute
    exact Prog.run_bind_error _ hload _
  cases predicate with
  | none => exact ⟨e, hscan⟩
  | some p =>
    refine ⟨.wrap "executor: executing filter source: %w" [] e, ?_⟩
    change (Sql.execute walk (.filter (.scan name) p)).run (tables codec) m = _
    unfold Sql.execute
    exact Prog.run_bind_error _ (run_wrap_error hscan _ _) _

end Sources

/-- A DELETE removes the keys of the rows that its WHERE clause holds for. They
are made of the rows, not those that the rows were read from. -/
theorem HasTable.delete_own {predicate : Option Expression} {selected : List Row}
    (h : HasTable codec m table) (walk : Walk) (key : Row → Bytes)
    (hkey : ∀ p ∈ storedRows codec m table, keyOf table p.2 = .ok (key p.2))
    (hselect : selectRows predicate (table.columns.map Column.name)
      ((storedRows codec m table).map Prod.snd) = .ok selected) :
    (Sql.execute walk (.delete table.name (filtered (.scan table.name) predicate))).run
      (tables codec) m =
      (.ok (.delete selected.length), m.eraseAll (selected.map key)) := by
  have hown : ∀ p ∈ selected.map (fun row => (key row, row)), keyOf table p.2 = .ok p.1 := by
    intro p hp
    obtain ⟨row, hrow, rfl⟩ := List.mem_map.mp hp
    rw [selectRows_ok hselect] at hrow
    obtain ⟨q, hq, rfl⟩ := List.mem_map.mp (List.mem_filter.mp hrow).1
    exact hkey q hq
  have hsource := @HasTable.source_run codec m table walk predicate h
  have hdelete := @deleteRows_run codec m table _ hown 0
  rw [hselect] at hsource
  rw [List.map_map, List.map_map, List.length_map, Nat.zero_add] at hdelete
  rw [show (Prod.snd ∘ fun row => (key row, row)) = id from rfl, List.map_id] at hdelete
  unfold Sql.execute
  refine (Prog.run_bind_ok _ (loadTable_run h.getTable) _).trans ?_
  refine (Prog.run_bind_ok _ hsource _).trans ?_
  exact Prog.run_bind_ok _ hdelete _

/-- DELETE removes the selected rows, each under its own key. -/
theorem HasTable.delete_run {predicate : Option Expression} {selected : List Row}
    (h : HasTable codec m table) (hk : Keyed codec m table)
    (hselect : selectRows predicate (table.columns.map Column.name)
      ((storedRows codec m table).map Prod.snd) = .ok selected) :
    (Sql.execute walk (.delete table.name (filtered (.scan table.name) predicate))).run
      (tables codec) m =
      (.ok (.delete selected.length), m.eraseAll (((storedRows codec m table).filter
        (fun p => holdsFor predicate (table.columns.map Column.name) p.2)).map Prod.fst)) := by
  have hkey : ∀ p ∈ storedRows codec m table, (keyOf table p.2).toOption.getD [] = p.1 := by
    intro p hp
    rw [hk p hp]
    rfl
  rw [h.delete_own walk (fun row => (keyOf table row).toOption.getD [])
    (fun p hp => (hk p hp).trans (congrArg _ (hkey p hp).symm)) hselect, selectRows_ok hselect,
    List.filter_map, List.map_map]
  exact congrArg (fun keys => (_, m.eraseAll keys))
    (List.map_congr_left fun p hp => hkey p (List.mem_filter.mp hp).1)

end SpaceDB.Proofs
