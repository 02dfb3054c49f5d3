import SpaceDB.Proofs.Assignments
import SpaceDB.Proofs.Deletes
import SpaceDB.Proofs.InsertedRows

namespace SpaceDB.Proofs
open Lib Storage Sql Engine

variable {codec : Codec} {m m' : Contents} {table : Table} {row : Row}

def ReadsAs (codec : Codec) (read : Value → Value) : Prop :=
  ∀ {row encoded}, codec.encodeRow row = .ok encoded → codec.decodeRow encoded = .ok (row.map read)

/-- A row that CreateRow has stored is valid and new. -/
theorem createRow_ok (h : HasTable codec m table)
    (hrun : tables codec (.createRow table.name row) m = (.ok (), m')) :
    ∃ pk encoded, validateRow table row = .ok () ∧ table.primaryKeyValue row = .ok pk ∧
      codec.encodeRow row = .ok encoded ∧ m.find? (keyFor table pk) = none ∧
      m' = m.insert (keyFor table pk) encoded := by
  change (KVTransaction.createRow codec table.name row).run direct m = _ at hrun
  simp only [KVTransaction.createRow, Prog.bind_eq] at hrun
  have hget : (KVTransaction.getTable codec table.name).run direct m = (.ok (some table), m) :=
    h.getTable
  rw [Prog.run_bind_ok _ (kv_wrap_ok hget _ _)] at hrun
  obtain ⟨⟨⟩, hvalid, hrun⟩ := Prog.run_ofExcept_bind_inv direct hrun
  obtain ⟨pk, hpk, hrun⟩ := Prog.run_ofExcept_bind_inv direct hrun
  obtain ⟨key, hkey, hrun⟩ := Prog.run_ofExcept_bind_inv direct hrun
  rw [rowKey_eq h.named] at hkey
  cases hkey
  obtain ⟨existing, m₁, hget, hrun⟩ := Prog.run_bind_inv direct hrun
  have hget := kv_wrap_inv hget
  rw [run_mvcc] at hget
  cases hget
  cases hfind : m.find? (keyFor table pk) with
  | some old =>
    rw [hfind] at hrun
    cases hrun
  | none =>
    rw [hfind] at hrun
    obtain ⟨encoded, hcoded, hrun⟩ := coded_bind_inv hrun
    rw [run_mvcc] at hrun
    cases hrun
    exact ⟨pk, encoded, hvalid, hpk, hcoded, hfind, rfl⟩

section Loop
variable {name : Bytes} {names : List Bytes} {i n : Nat} {es : List Expression}
    {values : List (List Expression)}

/-- The first row of an INSERT that succeeds, and the others. -/
theorem insertRows_cons_ok
    (hrun : (insertRows name table names i (es :: values)).run (tables codec) m = (.ok n, m')) :
    ∃ input full m₁, insertValues i 0 es = .ok input ∧ makeInsertRow table names input = .ok full ∧
      tables codec (.createRow name full) m = (.ok (), m₁) ∧
      (insertRows name table names (i + 1) values).run (tables codec) m₁ = (.ok n, m') := by
  simp only [insertRows, Prog.bind_eq] at hrun
  obtain ⟨input, hinput, hrun⟩ := Prog.run_ofExcept_bind_inv _ hrun
  obtain ⟨full, hfull, hrun⟩ := Prog.run_ofExcept_bind_inv _ hrun
  obtain ⟨⟨⟩, m₁, hcreate, hrun⟩ := Prog.run_bind_inv _ hrun
  rw [run_wrap, run_txn, Prod.mk.injEq] at hcreate
  exact ⟨input, full, m₁, hinput, outcome_wrap_ok hfull,
    Prod.ext (outcome_wrap_ok hcreate.1) hcreate.2, hrun⟩

theorem insertValues_ok {k : Nat} {input : Row} (h : insertValues i k es = .ok input) :
    es.mapM valueFromExpression = .ok input := by
  induction es generalizing k input with
  | nil =>
    cases h
    rfl
  | cons e es ih =>
    obtain ⟨v, hv, h⟩ := outcome_bind_ok h
    obtain ⟨rest, hrest, h⟩ := outcome_bind_ok h
    cases h
    rw [List.mapM_cons, outcome_wrap_ok hv, ih hrest]
    rfl

end Loop

theorem storedRows_insert {key encoded : Bytes} {p : Bytes × Row} (hkey : rowStart table <+: key)
    (hdecoded : codec.decodeRow encoded = .ok row) :
    p ∈ storedRows codec (m.insert key encoded) table ↔
      p = (key, row) ∨ p ∈ storedRows codec m table ∧ p.1 ≠ key := by
  rw [← OrderedMap.insert_erase]
  exact (mem_storedRows_move hkey hdecoded).trans (by simp)

theorem HasTable.insert {key encoded : Bytes} (h : HasTable codec m table)
    (hkey : rowStart table <+: key)
    (hdecoded : codec.decodeRow encoded = .ok row) (hlength : row.length = table.columns.length) :
    HasTable codec (m.insert key encoded) table := by
  rw [← OrderedMap.insert_erase]
  exact h.move hkey hkey hdecoded hlength

theorem plan_insert {sql : Bytes} {statement : InsertStatement}
    (h : parse sql = .ok (.insert statement)) :
    Session.plan sql = .ok (.insert statement.tableName statement.columns statement.values) := by
  unfold Session.plan
  rw [h]
  rfl

theorem HasTable.insert_ok {walk : Walk} {names : List Bytes} {values : List (List Expression)}
    {result : ResultSet} (h : HasTable codec m table)
    (hrun : (Sql.execute walk (.insert table.name names values)).run (tables codec) m =
      (.ok result, m')) :
    ∃ n, result = .insert n ∧
      (insertRows table.name table names 0 values).run (tables codec) m = (.ok n, m') := by
  unfold Sql.execute at hrun
  rw [Prog.bind_eq, Prog.run_bind_ok _ (loadTable_run h.getTable)] at hrun
  obtain ⟨n, m₁, hloop, hrun⟩ := Prog.run_bind_inv _ hrun
  cases hrun
  exact ⟨n, rfl, hloop⟩

def insertedKey (table : Table) (names : List Bytes) (es : List Expression) : Option Value :=
  (keyColumn table).bind fun k =>
    (supplied table.columns names (es.filterMap fun e => (valueFromExpression e).toOption) k).or
      ((table.columns[k]?).bind Column.default)

/-- The key of the row that is made is the one that the INSERT gives. -/
theorem insertedKey_eq {names : List Bytes} {es : List Expression} {input full : Row} {pk : Value}
    (hinput : es.mapM valueFromExpression = .ok input)
    (hfull : makeInsertRow table names input = .ok full)
    (hpk : table.primaryKeyValue full = .ok pk) : insertedKey table names es = some pk := by
  have hvalues : es.filterMap (fun e => (valueFromExpression e).toOption) = input := by
    have hforall := mapM_forall₂ hinput
    clear hinput hfull
    induction hforall with
    | nil => rfl
    | cons hv _ ih => rw [List.filterMap_cons, hv]; exact congrArg _ ih
  obtain ⟨-, k, hkey, hk⟩ := primaryKeyValue_iff.mp hpk
  obtain ⟨-, hcompleted⟩ := makeInsertRow_ok_iff.mp hfull
  have hlt := (List.findIdx?_eq_some_iff_getElem.mp hkey).1
  have hcolumn := List.getElem?_eq_getElem hlt
  unfold insertedKey
  rw [hkey, Option.bind_some, hvalues, hcolumn, Option.bind_some, ← hcompleted.values hcolumn, hk]

theorem primaryKeyValue_map {pk : Value} (read : Value → Value)
    (h : table.primaryKeyValue row = .ok pk) :
    table.primaryKeyValue (row.map read) = .ok (read pk) := by
  obtain ⟨hlength, k, hkey, hk⟩ := primaryKeyValue_iff.mp h
  exact primaryKeyValue_iff.mpr ⟨by simp [hlength], k, hkey, by simp [hk]⟩

/-- The rows of the table are those that were inserted with the given primary
keys, as the codec reads them. -/
structure Loaded (codec : Codec) (read : Value → Value) (table : Table) (m : Contents)
    (keys : List Value) : Prop where
  has : HasTable codec m table
  only : ∀ p ∈ storedRows codec m table, ∃ v ∈ keys, p.1 = keyFor table v ∧
    table.primaryKeyValue p.2 = .ok (read v)
  all : ∀ v ∈ keys, ∃ p ∈ storedRows codec m table, p.1 = keyFor table v

section Loading
variable {read : Value → Value} {keys : List Value} {names : List Bytes} {i n : Nat}

theorem keyFor_start (table : Table) (pk : Value) : rowStart table <+: keyFor table pk :=
  List.prefix_append _ _

/-- One row more under its key. -/
theorem Loaded.create {m' : Contents} (hc : ReadsAs codec read) (h : Loaded codec read table m keys)
    (hrun : tables codec (.createRow table.name row) m = (.ok (), m')) :
    ∃ pk, table.primaryKeyValue row = .ok pk ∧ Loaded codec read table m' (keys ++ [pk]) := by
  obtain ⟨pk, encoded, hvalid, hpk, hcoded, hfree, rfl⟩ := createRow_ok h.has hrun
  have hdecoded := hc hcoded
  have hmem := fun p => @storedRows_insert codec m table _ _ _ p (keyFor_start table pk) hdecoded
  refine ⟨pk, hpk, h.has.insert (keyFor_start table pk) hdecoded ?_, ?_, ?_⟩
  · rw [List.length_map]
    exact validateRow_length hvalid
  · intro p hp
    rcases (hmem p).mp hp with rfl | ⟨hp, -⟩
    · exact ⟨pk, by simp, rfl, primaryKeyValue_map read hpk⟩
    · obtain ⟨v, hv, hkey⟩ := h.only p hp
      exact ⟨v, List.mem_append_left _ hv, hkey⟩
  · intro v hv
    rcases List.mem_append.mp hv with hv | hv
    · obtain ⟨p, hp, hkey⟩ := h.all v hv
      refine ⟨p, (hmem p).mpr (.inr ⟨hp, fun heq => ?_⟩), hkey⟩
      -- The new key was free.
      obtain ⟨_, -, hfind, -⟩ := mem_storedRows.mp hp
      rw [heq, hfree] at hfind
      cases hfind
    · cases List.mem_singleton.mp hv
      exact ⟨_, (hmem _).mpr (.inl rfl), rfl⟩

/-- All rows of an INSERT. -/
theorem Loaded.rows {values : List (List Expression)} (hc : ReadsAs codec read)
    (h : Loaded codec read table m keys)
    (hrun : (insertRows table.name table names i values).run (tables codec) m = (.ok n, m')) :
    Loaded codec read table m' (keys ++ values.filterMap (insertedKey table names)) := by
  induction values generalizing i m keys with
  | nil =>
    cases hrun
    simpa using h
  | cons es values ih =>
    obtain ⟨input, full, m₁, hinput, hfull, hcreate, hrun⟩ := insertRows_cons_ok hrun
    obtain ⟨pk, hpk, hloaded⟩ := h.create hc hcreate
    have hkey := insertedKey_eq (insertValues_ok hinput) hfull hpk
    rw [List.filterMap_cons, hkey]
    simpa using ih hloaded hrun

end Loading

end SpaceDB.Proofs
