import SpaceDB.Proofs.Histories
import SpaceDB.Proofs.SessionRuns

namespace SpaceDB.Proofs
open Lib Storage Sql Engine

theorem tableKey_ok {name key : Bytes} (h : tableKey name = .ok key) :
    key = keyNamespaceTable :: name := by
  unfold tableKey at h
  split_ifs at h
  · cases h
  · exact (Except.ok.inj h).symm

theorem rowPrefixKey_ok {name key : Bytes} (h : rowPrefixKey name = .ok key) :
    key = keyNamespaceRow :: name ++ [keySeparator] := by
  unfold rowPrefixKey at h
  split_ifs at h
  · cases h
  · exact (Except.ok.inj h).symm

theorem rowKey_ok {name key : Bytes} {v : Value} (h : rowKey name v = .ok key) :
    key = keyNamespaceRow :: name ++ [keySeparator] ++ encodePrimaryKey v := by
  obtain ⟨start, hstart, hkey⟩ := outcome_bind_ok h
  cases hkey
  rw [rowPrefixKey_ok hstart]

/-- The name ends at the first separator. -/
theorem name_of_key {a b x y : Bytes} (ha : keySeparator ∉ a) (hb : keySeparator ∉ b)
    (h : a ++ keySeparator :: x = b ++ keySeparator :: y) : a = b := by
  have hcut : ∀ {a x : Bytes}, keySeparator ∉ a →
      (a ++ keySeparator :: x).takeWhile (· ≠ keySeparator) = a := by
    intro a x ha
    rw [List.takeWhile_append_of_pos, List.takeWhile_cons_of_neg (by simp), List.append_nil]
    intro c hc
    simpa using ne_of_mem_of_not_mem hc ha
  rw [← hcut ha, h, hcut hb]

/-- A row key lies under the prefix of no other table. -/
theorem row_bytes_separated {a b rest : Bytes} (ha : keySeparator ∉ a) (hb : keySeparator ∉ b)
    (h : keyNamespaceRow :: a ++ [keySeparator] <+: keyNamespaceRow :: b ++
      [keySeparator] ++ rest) :
    a = b := by
  obtain ⟨rest', hrest⟩ := h
  simp only [List.cons_append, List.append_assoc, List.nil_append,
    List.cons.injEq, true_and] at hrest
  exact name_of_key ha hb hrest

theorem rowKey_separated {a b start key : Bytes} {v : Value} (ha : keySeparator ∉ a)
    (hb : keySeparator ∉ b) (hstart : rowPrefixKey a = .ok start) (hkey : rowKey b v = .ok key)
    (h : start <+: key) : a = b := by
  rw [rowPrefixKey_ok hstart, rowKey_ok hkey] at h
  exact row_bytes_separated ha hb h

structure TableOk (name : Bytes) (table : Table) : Prop where
  named : table.name = name
  separated : keySeparator ∉ name
  defaults : ∀ c ∈ table.columns, Given Plain c.default

structure StoredTable (codec : Codec) (db : Db) (name : Bytes) (table : Table) : Prop where
  stored : ∃ encoded, db (keyNamespaceTable :: name) = some encoded ∧
    codec.decodeTable encoded = .ok table
  ok : TableOk name table

/-- The bytes under a key are a row of the table, and the key is that of its
primary key. -/
structure StoredRow (codec : Codec) (table : Table) (key encoded : Bytes) (row : Row) : Prop where
  decoded : codec.decodeRow encoded = .ok row
  valid : validateRow table row = .ok ()
  plain : ∀ v ∈ row, Plain v
  key : ∃ pk, table.primaryKeyValue row = .ok pk ∧ rowKey table.name pk = .ok key

structure RowStore (codec : Codec) (db : Db) : Prop where
  tables : ∀ {name encoded}, db (keyNamespaceTable :: name) = some encoded →
    ∃ table, codec.decodeTable encoded = .ok table ∧ TableOk name table
  rows : ∀ {key encoded}, db (keyNamespaceRow :: key) = some encoded →
    ∃ name table row, StoredTable codec db name table ∧
      StoredRow codec table (keyNamespaceRow :: key) encoded row

/-- The writes that a statement on one table makes: it creates the table where
there was none, stores rows of the table that it has found, and deletes rows. -/
inductive WriteOk (codec : Codec) (name : Bytes) (base : Db) : Bytes × Slice → Prop where
  | create {encoded : Bytes} {table : Table} (fresh : base (keyNamespaceTable :: name) = none)
      (decoded : codec.decodeTable encoded = .ok table) (ok : TableOk name table) :
      WriteOk codec name base (keyNamespaceTable :: name, some encoded)
  | put {key encoded : Bytes} {table : Table} {row : Row}
    (known : StoredTable codec base name table)
      (stored : StoredRow codec table key encoded row) : WriteOk codec name base (key, some encoded)
  | remove {key : Bytes} {pk : Value} (key_eq : rowKey name pk = .ok key) :
      WriteOk codec name base (key, none)

def TablesKept (a b : Db) : Prop :=
  ∀ {name encoded}, a (keyNamespaceTable :: name) = some encoded →
    b (keyNamespaceTable :: name) = some encoded

variable {codec : Codec} {base db : Db} {name : Bytes} {table : Table}

theorem StoredTable.kept (h : StoredTable codec base name table) (hk : TablesKept base db) :
    StoredTable codec db name table := by
  obtain ⟨encoded, hstored, hdecoded⟩ := h.stored
  exact ⟨⟨encoded, hk hstored, hdecoded⟩, h.ok⟩

theorem table_ne_row {a b key : Bytes} {v : Value} (h : rowKey b v = .ok key) :
    key ≠ keyNamespaceTable :: a := by
  rw [rowKey_ok h]
  simp [keyNamespaceRow, keyNamespaceTable]

/-- A write to a table key creates a table that was not there. -/
theorem WriteOk.table_key {key : Bytes} {v : Slice}
    (h : WriteOk codec name base (keyNamespaceTable :: key, v)) :
    key = name ∧ base (keyNamespaceTable :: key) = none ∧
      ∃ encoded table, v = some encoded ∧ codec.decodeTable encoded = .ok table ∧
        TableOk name table := by
  cases h with
  | create fresh decoded ok => exact ⟨rfl, fresh, _, _, rfl, decoded, ok⟩
  | put known stored =>
    obtain ⟨pk, -, hkey⟩ := stored.key
    exact absurd rfl (table_ne_row hkey)
  | remove hkey => exact absurd rfl (table_ne_row hkey)

theorem WriteOk.row_key {key encoded : Bytes}
    (h : WriteOk codec name base (keyNamespaceRow :: key, some encoded)) :
    ∃ table row, StoredTable codec base name table ∧
      StoredRow codec table (keyNamespaceRow :: key) encoded row := by
  cases h with
  | put known stored => exact ⟨_, _, known, stored⟩

/-- Statements keep the row store, whatever has been committed since they
began. -/
theorem rowStore_merges (codec : Codec) :
    Merges (RowStore codec) (fun base w => ∃ name, WriteOk codec name base w) TablesKept := by
  refine ⟨⟨?_, ?_⟩, fun _ _ _ h => h, ?_, ?_⟩
  · intro name encoded h
    cases h
  · intro key encoded h
    cases h
  · intro a b c hab hbc name encoded h
    exact hbc (hab h)
  · intro base db ws hbase hdb hkept hok hsame
    have hnew : TablesKept db (applyWrites db ws) := by
      intro name encoded h
      rw [applyWrites_eq]
      cases hlast : lastWrite ws (keyNamespaceTable :: name) with
      | none => exact h
      | some v =>
        have hmem := lastWrite_mem hlast
        obtain ⟨owner, hwrite⟩ := hok _ hmem
        have hfresh := hsame _ hmem
        dsimp only at hfresh
        rw [h, hwrite.table_key.2.1] at hfresh
        cases hfresh
    refine ⟨⟨?_, ?_⟩, hnew⟩
    · intro name encoded h
      rw [applyWrites_eq] at h
      cases hlast : lastWrite ws (keyNamespaceTable :: name) with
      | none =>
        rw [hlast] at h
        exact hdb.tables h
      | some v =>
        rw [hlast] at h
        cases h
        obtain ⟨owner, hwrite⟩ := hok _ (lastWrite_mem hlast)
        obtain ⟨rfl, -, encoded', table, heq, hdecoded, htable⟩ := hwrite.table_key
        cases heq
        exact ⟨table, hdecoded, htable⟩
    · intro key encoded h
      rw [applyWrites_eq] at h
      cases hlast : lastWrite ws (keyNamespaceRow :: key) with
      | none =>
        rw [hlast] at h
        obtain ⟨name, table, row, htable, hrow⟩ := hdb.rows h
        exact ⟨name, table, row, htable.kept hnew, hrow⟩
      | some v =>
        rw [hlast] at h
        cases h
        obtain ⟨owner, hwrite⟩ := hok _ (lastWrite_mem hlast)
        obtain ⟨table, row, htable, hrow⟩ := hwrite.row_key
        exact ⟨owner, table, row, (htable.kept hkept).kept hnew, hrow⟩

/-- A statement that has found `base` works with the tables of `base`, and
every value it can read is `good`. -/
def Working (codec : Codec) (good : Value → Prop) (base : Db) (phase : Phase) : Prop :=
  ∃ view, phase = .running base view ∧
    (∀ name, view (keyNamespaceTable :: name) = base (keyNamespaceTable :: name)) ∧
    ∀ key encoded row, view (keyNamespaceRow :: key) = some encoded →
      codec.decodeRow encoded = .ok row → ∀ v ∈ row, good v

theorem Working.underway {good : Value → Prop} {phase : Phase} (h : Working codec good base phase) :
    Underway phase := by
  obtain ⟨view, rfl, -⟩ := h
  exact ⟨base, view, rfl⟩

theorem RowStore.working (h : RowStore codec base) :
    Working codec Plain base (.running base base) := by
  refine ⟨base, rfl, fun _ => rfl, ?_⟩
  intro key encoded row hkey hdecoded
  obtain ⟨name, table, row', -, hrow⟩ := h.rows hkey
  rw [hrow.decoded] at hdecoded
  cases hdecoded
  exact hrow.plain

section Statements
variable {inv : Db → Prop} {ok : Db → Bytes × Slice → Prop} {good : Value → Prop}
  {Known : Bytes → Table → Prop} (Target : Bytes → Prop)

theorem working_write {c : MvccCall} {k : Bytes} {v : Slice}
    (hk : ∃ key, k = keyNamespaceRow :: key)
    (hv : ∀ encoded row, v = some encoded → codec.decodeRow encoded = .ok row → ∀ x ∈ row, good x)
    (hc : ∀ {P : MvccRet c → Phase → Prop} {view : Db},
      (∀ r, P r (.running base (Function.update view k v)) ∧ P r (.running base view)) →
      phaseRule inv ok c P (.running base view)) :
    Behaves (phaseRule inv ok) (Working codec good base) (fun _ => True) (mvcc c) := by
  obtain ⟨rowKey, rfl⟩ := hk
  rintro _ ⟨view, rfl, htables, hrows⟩
  apply hc
  intro r
  have hold : Working codec good base (.running base view) := ⟨view, rfl, htables, hrows⟩
  have hnew : Working codec good base
      (.running base (Function.update view (keyNamespaceRow :: rowKey) v)) := by
    refine ⟨_, rfl, ?_, ?_⟩
    · intro name
      rw [Function.update_of_ne (by simp [keyNamespaceRow, keyNamespaceTable])]
      exact htables name
    · intro key encoded row hkey
      rw [Function.update_apply] at hkey
      split_ifs at hkey
      · exact hv encoded row hkey
      · exact hrows key encoded row hkey
  cases r with
  | ok a => exact ⟨⟨hnew, trivial⟩, ⟨hold, trivial⟩⟩
  | error e => exact ⟨⟨hnew, trivial⟩, ⟨hold, trivial⟩⟩

/-- The MVCC as the statements on the target tables use it, when the tables of
`base` are the ones they know and their writes are allowed. -/
theorem working_stores (hplain : ∀ v, Plain v → good v)
    (hdefaults : ∀ {name table}, Known name table → ∀ c ∈ table.columns, Given good c.default)
    (hknown : ∀ {name encoded table}, base (keyNamespaceTable :: name) = some encoded →
      codec.decodeTable encoded = .ok table → Known name table)
    (hnamed : ∀ {name table}, Known name table → table.name = name)
    (hput : ∀ {name table row pk key encoded}, Target name → Known name table →
      validateRow table row = .ok () → (∀ v ∈ row, good v) → table.primaryKeyValue row = .ok pk →
      rowKey name pk = .ok key → codec.encodeRow row = .ok encoded → ok base (key, some encoded))
    (hreadable : ∀ {row row' encoded}, (∀ v ∈ row, good v) → codec.encodeRow row = .ok encoded →
      codec.decodeRow encoded = .ok row' → ∀ v ∈ row', good v)
    (hremove : ∀ {name pk key}, Target name → rowKey name pk = .ok key → ok base (key, none)) :
    Stores codec (phaseRule inv ok) (Working codec good base) good Known Target where
  monotone := phaseRule_monotone
  plain := hplain
  defaults := hdefaults
  get := by
    rintro key _ ⟨view, rfl, htables, hrows⟩
    refine ⟨⟨view, rfl, htables, hrows⟩, ?_⟩
    intro name encoded table hkey hvalue hdecoded
    rw [tableKey_ok hkey, htables] at hvalue
    exact hknown hvalue hdecoded
  scanPrefix := by
    rintro name start hstart _ ⟨view, rfl, htables, hrows⟩ es hes
    refine ⟨⟨view, rfl, htables, hrows⟩, ?_⟩
    intro e he row hdecoded
    obtain ⟨⟨rest, hrest⟩, hsome, hvalue⟩ := hes e he
    obtain ⟨encoded, hencoded⟩ := Option.isSome_iff_exists.mp hsome
    rw [rowPrefixKey_ok hstart] at hrest
    rw [hencoded] at hdecoded hvalue
    rw [← hrest] at hvalue
    exact hrows _ encoded row hvalue.symm hdecoded
  set := by
    intro name name' table row pk key encoded hname htable hname' hvalid hgood hpk hkey hencoded
    have hkey : rowKey name pk = .ok key := by
      rcases hname' with rfl | rfl
      · exact hkey
      · exact hnamed htable ▸ hkey
    have hwrite := hput hname htable hvalid hgood hpk hkey hencoded
    refine working_write ⟨_, rowKey_ok hkey⟩ ?_ (fun h => ⟨hwrite, (h _).1, (h _).2⟩)
    intro encoded' row' heq hdecoded
    cases heq
    exact hreadable hgood hencoded hdecoded
  delete := by
    intro name table pk key hname htable hkey
    have hwrite := hremove hname (hnamed htable ▸ hkey)
    refine working_write ⟨_, rowKey_ok hkey⟩ ?_ (fun h => ⟨hwrite, (h _).1, (h _).2⟩)
    intro encoded row heq
    cases heq

variable (inv) in
/-- A statement on one table makes writes of its kind only. -/
theorem rowStore_stores (hc : Faithful codec) (hbase : RowStore codec base)
    (hok : ∀ {name w}, Target name → WriteOk codec name base w → ok base w) :
    Stores codec (phaseRule inv ok) (Working codec Plain base) Plain (StoredTable codec base)
      Target := by
  apply working_stores Target (fun _ h => h) (fun h => h.ok.defaults) _ (fun h => h.ok.named)
  · intro name table row pk key encoded hname htable hvalid hplain hpk hkey hencoded
    refine hok hname (.put htable ⟨hc.row hencoded, hvalid, hplain, pk, hpk, ?_⟩)
    exact htable.ok.named ▸ hkey
  · intro row row' encoded hplain hencoded hdecoded
    rw [hc.row hencoded] at hdecoded
    cases hdecoded
    exact hplain
  · exact fun hname hkey => hok hname (.remove hkey)
  · intro name encoded table hstored hdecoded
    obtain ⟨table', hdecoded', hok⟩ := hbase.tables hstored
    rw [hdecoded] at hdecoded'
    cases hdecoded'
    exact ⟨⟨encoded, hstored, hdecoded⟩, hok⟩

/-- A CREATE TABLE stores the table where there was none, and nothing else. -/
theorem createTable_stores {schema : Table} (hname : schema.name ≠ [])
    (hwrite : ∀ {encoded}, codec.encodeTable schema = .ok encoded →
      base (keyNamespaceTable :: schema.name) = none →
      ok base (keyNamespaceTable :: schema.name, some encoded)) :
    (KVTransaction.createTable codec schema).wp (phaseRule inv ok) (fun _ phase => Underway phase)
      (.running base base) := by
  have hkey : tableKey schema.name = .ok (keyNamespaceTable :: schema.name) := if_neg hname
  have hrun := kv_createTable codec (@phaseRule_monotone inv ok) (J := Underway)
    (K := fun _ => True) (I := fun phase => phase = .running base base)
    (Q := fun v => v = base (keyNamespaceTable :: schema.name)) (by
      rintro _ rfl
      exact ⟨base, base, rfl⟩) hkey (by
      rintro _ rfl
      exact ⟨rfl, rfl⟩) (by
      rintro encoded _ - hencoded hfresh rfl
      exact ⟨hwrite hencoded hfresh.symm, ⟨⟨base, _, rfl⟩, trivial⟩,
        ⟨base, base, rfl⟩, trivial⟩) rfl
  exact Prog.wp_mono phaseRule_monotone (fun _ _ h => h.1) hrun

theorem lowerPart_ne_separator {b : Byte} (h : lowerPart b) : b ≠ keySeparator := by
  rintro rfl
  revert h
  unfold lowerPart lowerStart keySeparator
  decide

theorem Identifier.ne_nil (h : Identifier name) : name ≠ [] := by
  obtain ⟨b, rest, rfl, -⟩ := h.start
  exact List.cons_ne_nil b rest

theorem Identifier.separated (h : Identifier name) : keySeparator ∉ name := by
  obtain ⟨b, rest, rfl, hb, hrest⟩ := h.start
  intro hin
  rcases List.mem_cons.mp hin with heq | hin
  · exact lowerPart_ne_separator (.inl hb) heq.symm
  · exact lowerPart_ne_separator (hrest _ hin) rfl

/-- Every execution keeps the rows of the tables that it works on. -/
theorem session_writes (hc : Faithful codec) {walk : Walk} (hwalk : ∀ l, (walk l).Perm l)
    {sql : Bytes} (htarget : ∀ node, Session.plan sql = .ok node → Given Target (target node))
    (hok : ∀ {base name w}, Target name → WriteOk codec name base w → ok base w) :
    (Session.execute codec walk sql).wp (phaseRule (RowStore codec) ok) Ended .idle := by
  apply (phaseRule_phased _ _).statements
  · intro schema hplan db _
    obtain ⟨hident, hdefaults⟩ := planned_text hplan
    refine createTable_stores hident.ne_nil fun hencoded hfresh => ?_
    exact hok (htarget _ hplan _ rfl)
      (.create hfresh (hc.table hencoded) ⟨rfl, hident.separated, hdefaults⟩)
  · intro node hplan hnode db hdb
    have hserves := (rowStore_stores (RowStore codec) Target hc hdb (fun h hw => hok h hw)).serves
    have hbehaves := statement_behaves hserves hwalk (planned_text hplan) (htarget node hplan)
      (fun schema heq => absurd heq (hnode schema))
    apply Prog.wp_mono (kvRule_monotone codec phaseRule_monotone) _ (hbehaves _ hdb.working)
    exact fun _ _ h => h.1.underway

end Statements

/-- In every reachable world, as long as versions do not wrap around. -/
theorem reaches_rowStore {setting : Setting} {w : World} (hc : Faithful setting.codec)
    (h : setting.Reaches w) (hb : w.sys.begins < 2 ^ 64 - 1) :
    Sound (RowStore setting.codec) (fun base v => ∃ name, WriteOk setting.codec name base v) w := by
  obtain ⟨events, hrun⟩ := h
  refine run_sound _ _ ?_ ?_ sound_init hrun hb
  · exact fun s hs hok => (rowStore_merges setting.codec).commits hs hok
  · intro i sql
    apply session_writes (fun _ => True) hc (setting.walks.perm i)
    · exact fun _ _ _ _ => trivial
    · exact fun _ hw => ⟨_, hw⟩

end SpaceDB.Proofs
