import SpaceDB.Engine.Clients
import SpaceDB.Proofs.StoredTables

namespace SpaceDB.Proofs
open Lib Storage Sql Engine

/-- Every stored table is valid and has its name, and every stored row is a row
of a stored table under the key of its primary key. -/
structure KeyedStore (codec : Codec) (db : Db) : Prop where
  tables : ∀ {name encoded}, db (keyNamespaceTable :: name) = some encoded →
    ∃ table, codec.decodeTable encoded = .ok table ∧ table.name = name ∧ keySeparator ∉ name ∧
      table.validate = .ok ()
  rows : ∀ {key encoded}, db (keyNamespaceRow :: key) = some encoded →
    ∃ table row, codec.Holds db table ∧ codec.decodeRow encoded = .ok row ∧
      validateRow table row = .ok () ∧ keyOf table row = .ok (keyNamespaceRow :: key)

/-- What a transaction sees is in order, and it has the tables of its snapshot. -/
def Orderly (codec : Codec) (base view : Db) : Prop := KeyedStore codec view ∧ TablesKept base view

variable {codec : Codec} {base db start view : Db} {table : Table}

theorem holds_kept (h : codec.Holds base table) (hk : TablesKept base db) :
    codec.Holds db table := by
  obtain ⟨encoded, hstored, hdecoded⟩ := h
  exact ⟨encoded, hk hstored, hdecoded⟩

theorem TablesKept.trans {a b c : Db} (hab : TablesKept a b) (hbc : TablesKept b c) :
    TablesKept a c :=
  fun h => hbc (hab h)

theorem KeyedStore.orderly (h : KeyedStore codec db) : Orderly codec db db := ⟨h, fun hk => hk⟩

theorem KeyedStore.held (h : KeyedStore codec db) (ht : codec.Holds db table) :
    keySeparator ∉ table.name ∧ table.validate = .ok () := by
  obtain ⟨encoded, hstored, hdecoded⟩ := ht
  obtain ⟨table', hdecoded', hname, hseparated, hvalid⟩ := h.tables hstored
  rw [hdecoded] at hdecoded'
  cases hdecoded'
  exact ⟨hseparated, hvalid⟩

/-- A valid row of a stored table, under its own key. -/
theorem KeyedStore.put (h : KeyedStore codec db) (ht : codec.Holds db table) {row : Row}
    {key encoded : Bytes} (hdecoded : codec.decodeRow encoded = .ok row)
    (hvalid : validateRow table row = .ok ()) (hkey : keyOf table row = .ok key) :
    KeyedStore codec (Function.update db key (some encoded)) ∧
      ∀ name, Function.update db key (some encoded) (keyNamespaceTable :: name) =
        db (keyNamespaceTable :: name) := by
  have htables : ∀ name, Function.update db key (some encoded) (keyNamespaceTable :: name) =
      db (keyNamespaceTable :: name) :=
    fun name => Function.update_of_ne (rowStart_ne_table key name (keyOf_start hkey)).symm _ _
  have hkept : TablesKept db (Function.update db key (some encoded)) :=
    fun hk => (htables _).trans hk
  refine ⟨⟨?_, ?_⟩, htables⟩
  · intro name encoded' hstored
    rw [htables] at hstored
    exact h.tables hstored
  · intro key' encoded' hstored
    rw [Function.update_apply] at hstored
    split_ifs at hstored with heq
    · cases hstored
      exact ⟨table, row, holds_kept ht hkept, hdecoded, hvalid, heq ▸ hkey⟩
    · obtain ⟨table', row', ht', hrow'⟩ := h.rows hstored
      exact ⟨table', row', holds_kept ht' hkept, hrow'⟩

/-- A row less. -/
theorem KeyedStore.remove (h : KeyedStore codec db) {name key : Bytes} {pk : Value}
    (hkey : rowKey name pk = .ok key) :
    KeyedStore codec (Function.update db key none) ∧
      ∀ name, Function.update db key none (keyNamespaceTable :: name) =
        db (keyNamespaceTable :: name) := by
  have htables : ∀ name, Function.update db key none (keyNamespaceTable :: name) =
      db (keyNamespaceTable :: name) :=
      fun name => Function.update_of_ne (table_ne_row hkey).symm _ _
  refine ⟨⟨?_, ?_⟩, htables⟩
  · intro name' encoded hstored
    rw [htables] at hstored
    exact h.tables hstored
  · intro key' encoded hstored
    rw [Function.update_apply] at hstored
    split_ifs at hstored
    · obtain ⟨table, row, ht, hrow⟩ := h.rows hstored
      exact ⟨table, row, holds_kept ht (fun hk => (htables _).trans hk), hrow⟩

/-- A new table; there cannot be rows of it yet. -/
theorem KeyedStore.create (h : KeyedStore codec db) {encoded : Bytes}
    (hfresh : db (keyNamespaceTable :: table.name) = none)
    (hdecoded : codec.decodeTable encoded = .ok table) (hseparated : keySeparator ∉ table.name)
    (hvalid : table.validate = .ok ()) :
    Orderly codec db (Function.update db (keyNamespaceTable :: table.name) (some encoded)) := by
  have hkept :
      TablesKept db (Function.update db (keyNamespaceTable :: table.name) (some encoded)) := by
    intro name encoded' hstored
    rw [Function.update_of_ne, hstored]
    intro heq
    rw [heq, hfresh] at hstored
    cases hstored
  refine ⟨⟨?_, ?_⟩, hkept⟩
  · intro name encoded' hstored
    rw [Function.update_apply] at hstored
    split_ifs at hstored with heq
    · cases hstored
      obtain ⟨-, hname⟩ := List.cons.inj heq
      exact ⟨table, hdecoded, hname.symm, hname ▸ hseparated, hvalid⟩
    · exact h.tables hstored
  · intro key encoded' hstored
    rw [Function.update_of_ne (by simp [keyNamespaceRow, keyNamespaceTable])] at hstored
    obtain ⟨table', row, ht, hrow⟩ := h.rows hstored
    exact ⟨table', row, holds_kept ht hkept, hrow⟩

/-- Writes to keys on which two databases agree leave every key as it was in
both, or the same in both. -/
theorem applyWrites_cases {ws : List (Bytes × Slice)}
    (hsame : ∀ w ∈ ws, db w.1 = base w.1) (k : Bytes) :
    (applyWrites db ws k = db k ∧ applyWrites base ws k = base k) ∨
      (applyWrites db ws k = applyWrites base ws k ∧ db k = base k) := by
  rw [applyWrites_eq, applyWrites_eq]
  cases hlast : lastWrite ws k with
  | none => exact .inl ⟨rfl, rfl⟩
  | some v => exact .inr ⟨rfl, hsame _ (lastWrite_mem hlast)⟩

/-- Transactions keep the store, whatever has been committed since they began. -/
theorem keyedStore_absorbs (codec : Codec) :
    Absorbs (KeyedStore codec)
      (fun base ws => Orderly codec base (applyWrites base ws)) TablesKept := by
  refine ⟨⟨?_, ?_⟩, fun _ _ _ h => h, TablesKept.trans, ?_⟩
  · intro name encoded h
    cases h
  · intro key encoded h
    cases h
  · intro base db ws hbase hdb hgrown hview hsame
    obtain ⟨hkeyed, hkept⟩ := hview
    have hnew : TablesKept db (applyWrites db ws) := by
      intro name encoded h
      rcases applyWrites_cases hsame (keyNamespaceTable :: name) with ⟨heq, -⟩ | ⟨heq, hold⟩
      · rw [heq, h]
      · rw [heq]
        exact hkept (hold ▸ h)
    have hseen : TablesKept (applyWrites base ws) (applyWrites db ws) := by
      intro name encoded h
      rcases applyWrites_cases hsame (keyNamespaceTable :: name) with ⟨heq, hold⟩ | ⟨heq, -⟩
      · rw [heq]
        exact hgrown (hold ▸ h)
      · rw [heq, h]
    refine ⟨⟨?_, ?_⟩, hnew⟩
    · intro name encoded h
      rcases applyWrites_cases hsame (keyNamespaceTable :: name) with ⟨heq, -⟩ | ⟨heq, -⟩
      · exact hdb.tables (heq ▸ h)
      · exact hkeyed.tables (heq ▸ h)
    · intro key encoded h
      rcases applyWrites_cases hsame (keyNamespaceRow :: key) with ⟨heq, -⟩ | ⟨heq, -⟩
      · obtain ⟨table, row, ht, hrow⟩ := hdb.rows (heq ▸ h)
        exact ⟨table, row, holds_kept ht hnew, hrow⟩
      · obtain ⟨table, row, ht, hrow⟩ := hkeyed.rows (heq ▸ h)
        exact ⟨table, row, holds_kept ht hseen, hrow⟩

end SpaceDB.Proofs
