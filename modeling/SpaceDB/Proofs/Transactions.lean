import SpaceDB.Engine.Session
import SpaceDB.Proofs.Executions

namespace SpaceDB.Proofs
open Lib Storage Sql Engine

theorem ordinary_and_eq {α : Type} {Q : α → Prop} {r : Outcome α} (h : Ordinary Q r) :
    Ordinary (fun a => Q a ∧ r = .ok a) r := by
  cases r with
  | ok a => exact ⟨h, rfl⟩
  | error e => cases e <;> exact h

section Kv
variable {S : Type} (codec : Codec) {rule : Rule MvccCall MvccRet S} {I : S → Prop}

def kvRule (codec : Codec) (rule : Rule MvccCall MvccRet S) : Rule TxnCall TxnRet S :=
  fun c P s => (KVTransaction.call codec c).wp rule P s

theorem kvRule_monotone (hrule : rule.Monotone) : (kvRule codec rule).Monotone :=
  fun _ _ _ _ hPQ h => Prog.wp_mono hrule hPQ h

theorem wp_kv (hrule : rule.Monotone) {α : Type} {p : ExecM α} {Q : Outcome α → S → Prop} {s : S}
    (h : p.wp (kvRule codec rule) Q s) :
    (p.through (fun c => (KVTransaction.call codec c).attempt)).wp rule Q s := by
  refine Prog.wp_through hrule (kvRule_monotone codec hrule) (fun c P s hc => ?_) h
  apply Prog.wp_attempt hrule
  apply Prog.wp_mono hrule _ hc
  exact fun r s' hr => ⟨r, rfl, hr⟩

theorem wp_txn (hrule : rule.Monotone) {c : TxnCall} {Q : TxnRet c → S → Prop} {s : S}
    (h : (KVTransaction.call codec c).wp rule Q s) : (txn c).wp (kvRule codec rule) Q s := by
  apply Prog.wp_mono hrule _ h
  exact fun r s' hr => Prog.wp_ofExcept hr

theorem behaves_txn (hrule : rule.Monotone) {c : TxnCall} {Q : c.Val → Prop}
    (h : Behaves rule I Q (KVTransaction.call codec c)) : Behaves (kvRule codec rule) I Q (txn c) :=
  fun s hs => wp_txn codec hrule (h s hs)

theorem behaves_coded {α : Type} {format : String} {args : List Arg} {r : Except Error α} :
    Behaves rule I (fun a => r = .ok a) (coded format args r) := by
  cases r with
  | ok a => exact behaves_done rfl
  | error e => exact behaves_fail _

theorem ordinary_tableKey (name : Bytes) : Ordinary (fun _ => True) (tableKey name) := by
  unfold tableKey
  split_ifs
  · exact ordinary_fault _ _
  · exact trivial

theorem ordinary_rowPrefixKey (name : Bytes) : Ordinary (fun _ => True) (rowPrefixKey name) := by
  unfold rowPrefixKey
  split_ifs
  · exact ordinary_fault _ _
  · exact trivial

theorem ordinary_rowKey (name : Bytes) (v : Value) : Ordinary (fun _ => True) (rowKey name v) :=
  (ordinary_rowPrefixKey name).bind (fun _ _ => trivial)

theorem validateValues_ordinary {row : Row} {columns : List Column} {i : Nat}
    (hi : i + columns.length = row.length) :
    Ordinary (fun _ => True) (validateValues row i columns) := by
  induction columns generalizing i with
  | nil => exact trivial
  | cons column columns ih =>
    have hlast : i + (columns.length + 1) = row.length := hi
    refine (ordinary_index (by omega)).bind (fun v _ => ?_)
    split
    · split_ifs
      · exact ih (by omega)
      · exact ordinary_fault _ _
    · split_ifs
      · exact ordinary_fault _ _
      · exact ih (by omega)

/-- Checking a row does not panic. -/
theorem validateRow_ordinary (table : Table) (row : Row) :
    Ordinary (fun _ => True) (validateRow table row) := by
  unfold validateRow
  by_cases hlength : row.length ≠ table.columns.length
  · rw [if_pos hlength]
    exact ordinary_fault _ _
  · rw [if_neg hlength]
    exact validateValues_ordinary (by omega)

theorem validateColumns_ordinary (name : Bytes) (columns : List Column) (keys : Nat) :
    Ordinary (fun _ => True) (Table.validateColumns name keys columns) := by
  induction columns generalizing keys with
  | nil => exact trivial
  | cons column columns ih =>
    unfold Table.validateColumns
    by_cases hkey : (column.primaryKey && column.nullable) = true
    · rw [if_pos hkey]
      exact ordinary_fault _ _
    · rw [if_neg hkey]
      cases column.default.bind Value.dataType with
      | none => exact ih _
      | some type =>
        by_cases htype : type ≠ column.dataType
        · simp only [if_pos htype]
          exact ordinary_fault _ _
        · simp only [if_neg htype]
          exact ih _

theorem validate_ordinary (table : Table) : Ordinary (fun _ => True) table.validate := by
  unfold Table.validate
  split_ifs
  · exact ordinary_fault _ _
  · exact ordinary_fault _ _
  · refine (validateColumns_ordinary table.name table.columns 0).bind (fun keys _ => ?_)
    split
    · exact ordinary_fault _ _
    · exact trivial
    · exact ordinary_fault _ _

theorem decodeEntry_ordinary (table : Table) (i : Nat) (e : Entry) :
    Ordinary (fun row => codec.decodeRow (e.value.getD []) = .ok row)
      (KVTransaction.decodeEntry codec table i e) := by
  unfold KVTransaction.decodeEntry
  cases codec.decodeRow (e.value.getD []) with
  | ok row => exact rfl
  | error err => exact trivial

/-- Every row of a scan is stored in one of the entries, and is as wide as the
table. -/
theorem decodeRows_ordinary (table : Table) {i : Nat} {es : List Entry} :
    Ordinary (fun rows => ∀ row ∈ rows, row.length = table.columns.length ∧
      ∃ e ∈ es, codec.decodeRow (e.value.getD []) = .ok row)
      (KVTransaction.decodeRows codec table i es) := by
  induction es generalizing i with
  | nil => exact List.forall_mem_nil _
  | cons e es ih =>
    refine (decodeEntry_ordinary codec table i e).bind (fun row hrow => ?_)
    by_cases hlength : row.length ≠ table.columns.length
    · rw [if_pos hlength]
      exact ordinary_fault _ _
    · rw [if_neg hlength]
      refine ih.bind (fun rows hrows => ?_)
      refine List.forall_mem_cons.mpr ⟨⟨not_not.mp hlength, e, List.mem_cons_self, hrow⟩, ?_⟩
      intro r hr
      obtain ⟨hwidth, e', he', hdecode⟩ := hrows r hr
      exact ⟨hwidth, e', List.mem_cons_of_mem _ he', hdecode⟩

/-- Creating a table reads its key once and writes it at the end. -/
theorem kv_createTable (hrule : rule.Monotone) {J K : S → Prop}
    (hIJ : ∀ s, I s → J s) {table : Table}
    {Q : Slice → Prop} {key : Bytes} (hkey : tableKey table.name = .ok key)
    (hget : Behaves rule I Q (mvcc (.get key)))
    (hset : ∀ encoded s, table.validate = .ok () → codec.encodeTable table = .ok encoded → Q none →
      I s → (mvcc (.set key encoded)).wp rule (fun r s' => J s' ∧ Ordinary (fun _ => K s') r) s)
    {s : S} (hs : I s) :
    (KVTransaction.createTable codec table).wp rule
      (fun r s' => J s' ∧ Ordinary (fun _ => K s') r) s := by
  have hfound : Behaves rule I (fun o => o = none → Q none)
      (KVTransaction.getTable codec table.name) := by
    unfold KVTransaction.getTable
    rw [hkey]
    refine hget.bind hrule (fun v hv => ?_)
    cases v with
    | none => exact behaves_done (fun _ => hv)
    | some encoded =>
      refine behaves_coded.bind hrule (fun t _ => behaves_done ?_)
      intro ht
      cases ht
  refine (behaves_ofExcept (ordinary_and_eq (validate_ordinary table)).wrap).seq hrule hs hIJ
    (fun _ s₁ hvalid hs₁ => ?_)
  refine hfound.seq hrule hs₁ hIJ (fun o s₂ ho hs₂ => ?_)
  cases o with
  | some t =>
    simp only [Option.isSome_some, if_true]
    exact ⟨hIJ _ hs₂, ordinary_fault _ _⟩
  | none =>
    simp only [Option.isSome_none, Bool.false_eq_true, if_false]
    rw [hkey]
    refine behaves_coded.seq hrule hs₂ hIJ (fun encoded s₃ hencoded hs₃ => ?_)
    exact hset encoded s₃ hvalid.2 hencoded (ho rfl) hs₃

end Kv

/-- What the MVCC does for a `KVTransaction`, in the terms of `Serves`. -/
structure Stores {S : Type} (codec : Codec) (rule : Rule MvccCall MvccRet S) (I : S → Prop)
    (good : Value → Prop) (Known : Bytes → Table → Prop) (Target : Bytes → Prop) : Prop where
  monotone : rule.Monotone
  plain : ∀ v, Plain v → good v
  defaults : ∀ {name table}, Known name table → ∀ c ∈ table.columns, Given good c.default
  get : ∀ key, Behaves rule I
    (fun v => ∀ name encoded table, tableKey name = .ok key → v = some encoded →
      codec.decodeTable encoded = .ok table → Known name table) (mvcc (.get key))
  scanPrefix : ∀ {name start}, rowPrefixKey name = .ok start → Behaves rule I
    (fun es => ∀ e ∈ es, ∀ row, codec.decodeRow (e.value.getD []) = .ok row → ∀ v ∈ row, good v)
    (mvcc (.scanPrefix start))
  set : ∀ {name name' table row pk key encoded}, Target name → Known name table →
    (name' = name ∨ name' = table.name) → validateRow table row = .ok () → (∀ v ∈ row, good v) →
    table.primaryKeyValue row = .ok pk → rowKey name' pk = .ok key →
    codec.encodeRow row = .ok encoded → Behaves rule I (fun _ => True) (mvcc (.set key encoded))
  delete : ∀ {name table pk key}, Target name → Known name table → rowKey table.name pk = .ok key →
    Behaves rule I (fun _ => True) (mvcc (.delete key))

section Stores
variable {S : Type} {codec : Codec} {rule : Rule MvccCall MvccRet S} {I : S → Prop}
  {good : Value → Prop} {Known : Bytes → Table → Prop} {Target : Bytes → Prop}
  (hs : Stores codec rule I good Known Target)
include hs

theorem kv_getTable (name : Bytes) :
    Behaves rule I (Given (Known name)) (KVTransaction.getTable codec name) := by
  refine (behaves_ofExcept (ordinary_and_eq (ordinary_tableKey name))).bind hs.monotone
    (fun key hkey => ?_)
  refine (hs.get key).bind hs.monotone (fun v hv => ?_)
  cases v with
  | none => exact behaves_done given_none
  | some encoded =>
    refine behaves_coded.bind hs.monotone (fun table htable => behaves_done ?_)
    exact given_some (hv name encoded table hkey.2 rfl htable)

theorem kv_scanTable (table : Table) :
    Behaves rule I (fun rows => ∀ row ∈ rows, row.length = table.columns.length ∧ ∀ v ∈ row, good v)
      (KVTransaction.scanTable codec table) := by
  refine (behaves_ofExcept (ordinary_and_eq (ordinary_rowPrefixKey _))).bind hs.monotone
    (fun start hstart => ?_)
  refine ((hs.scanPrefix hstart.2).wrap hs.monotone).bind hs.monotone (fun es hes => ?_)
  apply behaves_ofExcept
  refine (decodeRows_ordinary codec table).mono (fun rows hrows row hrow => ?_)
  obtain ⟨hwidth, e, he, hdecode⟩ := hrows row hrow
  exact ⟨hwidth, hes e he row hdecode⟩

/-- CreateRow keeps to the rule. -/
theorem kv_createRow {name : Bytes} {row : Row} (hname : Target name) (hrow : ∀ v ∈ row, good v) :
    Behaves rule I (fun _ => True) (KVTransaction.createRow codec name row) := by
  refine ((kv_getTable hs name).wrap hs.monotone).bind hs.monotone (fun o ho => ?_)
  cases o with
  | none => exact behaves_ofExcept (ordinary_fault _ _)
  | some table =>
    have hknown : Known name table := ho table rfl
    refine (behaves_ofExcept (ordinary_and_eq (validateRow_ordinary table row))).bind hs.monotone
      (fun _ hvalid => ?_)
    refine (behaves_ofExcept (ordinary_and_eq (primaryKeyValue_ordinary table row))).bind
      hs.monotone
      (fun pk hpk => ?_)
    refine (behaves_ofExcept (ordinary_and_eq (ordinary_rowKey name pk))).bind hs.monotone
      (fun key hkey => ?_)
    refine ((hs.get key).wrap hs.monotone).bind hs.monotone (fun v _ => ?_)
    split_ifs
    · exact behaves_ofExcept (ordinary_fault _ _)
    · refine behaves_coded.bind hs.monotone (fun encoded hencoded => ?_)
      exact hs.set hname hknown (.inl rfl) hvalid.2 hrow hpk.2 hkey.2 hencoded

theorem kv_moveRow {name : Bytes} {table : Table} (hname : Target name) (hknown : Known name table)
    (oldKey newKey : Value) (key : Bytes) :
    Behaves rule I (fun _ => True) (KVTransaction.moveRow table oldKey newKey key) := by
  unfold KVTransaction.moveRow
  split_ifs
  · refine (behaves_ofExcept (ordinary_and_eq (ordinary_rowKey _ _))).bind hs.monotone
      (fun old hold => ?_)
    refine ((hs.get key).wrap hs.monotone).bind hs.monotone (fun v _ => ?_)
    split_ifs
    · exact behaves_ofExcept (ordinary_fault _ _)
    · exact (hs.delete hname hknown hold.2).wrap hs.monotone
  · exact behaves_done trivial

/-- UpdateRow keeps to the rule. -/
theorem kv_updateRow {name : Bytes} {table : Table} {row : Row} (oldKey : Value)
    (hname : Target name)
    (hknown : Known name table) (hrow : ∀ v ∈ row, good v) :
    Behaves rule I (fun _ => True) (KVTransaction.updateRow codec table oldKey row) := by
  refine (behaves_ofExcept (ordinary_and_eq (validateRow_ordinary table row))).bind hs.monotone
    (fun _ hvalid => ?_)
  refine (behaves_ofExcept (ordinary_and_eq (primaryKeyValue_ordinary table row))).bind hs.monotone
    (fun pk hpk => ?_)
  refine (behaves_ofExcept (ordinary_and_eq (ordinary_rowKey _ pk))).bind hs.monotone
    (fun key hkey => ?_)
  refine (kv_moveRow hs hname hknown oldKey pk key).bind hs.monotone (fun _ _ => ?_)
  refine behaves_coded.bind hs.monotone (fun encoded hencoded => ?_)
  exact hs.set hname hknown (.inr rfl) hvalid.2 hrow hpk.2 hkey.2 hencoded

theorem kv_deleteRow {name : Bytes} {table : Table} (key : Value) (hname : Target name)
    (hknown : Known name table) :
    Behaves rule I (fun _ => True) (KVTransaction.deleteRow table key) := by
  refine (behaves_ofExcept (ordinary_and_eq (ordinary_rowKey _ key))).bind hs.monotone
    (fun k hk => ?_)
  exact (hs.delete hname hknown hk.2).wrap hs.monotone

/-- A `KVTransaction` over such an MVCC serves the executors. -/
theorem Stores.serves : Serves (kvRule codec rule) I good Known Target where
  monotone := kvRule_monotone codec hs.monotone
  plain := hs.plain
  defaults := hs.defaults
  getTable := fun name => behaves_txn codec hs.monotone (kv_getTable hs name)
  scanTable := fun table => behaves_txn codec hs.monotone (kv_scanTable hs table)
  createRow := fun hname hrow => behaves_txn codec hs.monotone (kv_createRow hs hname hrow)
  updateRow := fun key hname hknown hrow =>
    behaves_txn codec hs.monotone (kv_updateRow hs key hname hknown hrow)
  deleteRow := fun key hname hknown =>
    behaves_txn codec hs.monotone (kv_deleteRow hs key hname hknown)

end Stores

def onData : MvccCall → Prop
  | .begin | .commit | .rollback => False
  | _ => True

/-- Whatever a call answers, `I` holds afterwards. -/
structure Loose {S : Type} (rule : Rule MvccCall MvccRet S) (I : S → Prop) : Prop where
  monotone : rule.Monotone
  data : ∀ {c} {P : MvccRet c → S → Prop} {s}, onData c → I s → (∀ r s', I s' → P r s') → rule c P s

section Loose
variable {S : Type} {rule : Rule MvccCall MvccRet S} {I : S → Prop} (hl : Loose rule I)
include hl

theorem Loose.mvcc (c : MvccCall) (hc : onData c) : Behaves rule I (fun _ => True) (mvcc c) := by
  intro s hs
  refine hl.data hc hs (fun r s' hs' => ?_)
  cases r with
  | ok a => exact ⟨hs', trivial⟩
  | error e => exact ⟨hs', trivial⟩

theorem Loose.stores (codec : Codec) :
    Stores codec rule I (fun _ => True) (fun _ _ => True) (fun _ => True) where
  monotone := hl.monotone
  plain := fun _ _ => trivial
  defaults := fun _ _ _ _ _ => trivial
  get := fun key => (hl.mvcc (.get key) trivial).mono hl.monotone (fun _ _ _ _ _ _ _ _ => trivial)
  scanPrefix := fun {_ start} _ =>
    (hl.mvcc (.scanPrefix start) trivial).mono hl.monotone (fun _ _ _ _ _ _ _ _ => trivial)
  set := fun _ _ _ _ _ _ _ _ => hl.mvcc _ trivial
  delete := fun _ _ _ => hl.mvcc _ trivial

end Loose

end SpaceDB.Proofs
