import SpaceDB.Lib.Utf8
import SpaceDB.Proofs.Inserts

namespace SpaceDB.Proofs
open Lib Storage Sql Engine

/-- The JSON library replaces every byte of a string that is not UTF-8. -/
def jsonValue : Value → Value
  | .string s => .string (Utf8.toValid s)
  | v => v

def InUtf8 : Value → Prop
  | .string s => Utf8.Valid s
  | _ => True

theorem jsonValue_eq_iff {v : Value} : jsonValue v = v ↔ InUtf8 v := by
  cases v with
  | string s => exact Value.string.injEq .. ▸ Utf8.toValid_eq_iff
  | _ => exact iff_of_true rfl trivial

theorem inUtf8_jsonValue (v : Value) : InUtf8 (jsonValue v) := by
  cases v with
  | string s => exact Utf8.valid_toValid s
  | _ => exact trivial

/-- A string that has the key bytes of some value is that value. -/
theorem inUtf8_of_key {a b : Value}
    (h : encodePrimaryKey a = encodePrimaryKey (jsonValue b)) : InUtf8 a := by
  cases a with
  | string s =>
    cases b with
    | string t =>
      have hs : s = Utf8.toValid t := (List.cons.inj h).2
      exact hs ▸ Utf8.valid_toValid t
    | _ => exact absurd (List.cons.inj h).1 (by decide)
  | _ => exact trivial

theorem keyFor_injective {table : Table} {a b : Value} (h : keyFor table a = keyFor table b) :
    encodePrimaryKey a = encodePrimaryKey b := List.append_cancel_left h

section Loaded
variable {codec : Codec} {table : Table} {m : Contents} {keys : List Value}

/-- Rows lie under their own keys when the keys are UTF-8, and not otherwise. -/
theorem Loaded.keyed_iff (h : Loaded codec jsonValue table m keys) :
    Keyed codec m table ↔ ∀ v ∈ keys, InUtf8 v := by
  constructor
  · intro hkeyed v hv
    obtain ⟨p, hp, hkey⟩ := h.all v hv
    obtain ⟨u, -, -, hpk⟩ := h.only p hp
    have hagree := hkeyed p hp
    rw [keyOf_eq h.has.named hpk, Except.ok.injEq] at hagree
    exact inUtf8_of_key (keyFor_injective (hkey.symm.trans hagree.symm))
  · intro hvalid p hp
    obtain ⟨v, hv, hkey, hpk⟩ := h.only p hp
    rw [keyOf_eq h.has.named hpk, hkey, jsonValue_eq_iff.mpr (hvalid v hv)]

/-- A DELETE of all rows removes the keys that the rows have as they are read. -/
theorem Loaded.delete (h : Loaded codec jsonValue table m keys) (walk : Walk) : ∃ m',
    (Sql.execute walk (.delete table.name (.scan table.name))).run (tables codec) m =
      (.ok (.delete (storedRows codec m table).length), m') ∧
    HasTable codec m' table ∧ (storedRows codec m' table = [] ↔ ∀ v ∈ keys, InUtf8 v) := by
  have hown : ∀ p ∈ storedRows codec m table,
      keyOf table p.2 = .ok ((keyOf table p.2).toOption.getD []) := by
    intro p hp
    obtain ⟨v, -, -, hpk⟩ := h.only p hp
    rw [keyOf_eq h.has.named hpk]
    rfl
  have hselect : selectRows none (table.columns.map Column.name)
      ((storedRows codec m table).map Prod.snd) =
      .ok ((storedRows codec m table).map Prod.snd) := rfl
  have hrun := h.has.delete_own walk (fun row => (keyOf table row).toOption.getD []) hown hselect
  rw [List.length_map, List.map_map] at hrun
  refine ⟨_, hrun, h.has.eraseAll ?_, ?_⟩
  · intro k hk
    obtain ⟨p, hp, rfl⟩ := List.mem_map.mp hk
    exact keyOf_start (hown p hp)
  · rw [storedRows_eraseAll, List.filter_eq_nil_iff]
    constructor
    · intro hgone v hv
      obtain ⟨p, hp, hkey⟩ := h.all v hv
      -- Some row has this key as it is read, and that is a key in UTF-8.
      have hin := hgone p hp
      rw [decide_eq_true_iff, not_not, List.mem_map] at hin
      obtain ⟨q, hq, hqkey⟩ := hin
      obtain ⟨u, -, -, hpk⟩ := h.only q hq
      have hqown : keyFor table (jsonValue u) = p.1 := by
        rw [← hqkey, Function.comp_apply, keyOf_eq h.has.named hpk]
        rfl
      exact inUtf8_of_key (keyFor_injective (hkey.symm.trans hqown.symm))
    · intro hvalid p hp
      have hkeyed := h.keyed_iff.mpr hvalid p hp
      rw [decide_eq_true_iff, not_not, List.mem_map]
      refine ⟨p, hp, ?_⟩
      rw [Function.comp_apply, hkeyed]
      rfl

end Loaded

/-- Statements that run alone one after another, as long as they succeed. -/
def inOrder (setting : Setting) : Nat → List Bytes → Sys → Option Sys
  | _, [], s => some s
  | i, sql :: sqls, s =>
    match setting.execute i sql s with
    | (.ok _, s') => inOrder setting (i + 1) sqls s'
    | (.error _, _) => none

def scanned (setting : Setting) (s : Sys) (table : Table) : Outcome (List Entry) :=
  (((mvcc .begin).bind fun _ => mvcc (.scanPrefix (rowStart table))).run
    (serve setting.nil) (s, none)).1

/-- Every row that ScanTable returns was read from the key of its primary key. -/
def KeysAgree (setting : Setting) (s : Sys) (table : Table) : Prop :=
  ∃ entries, scanned setting s table = .ok entries ∧ ∀ e ∈ entries, ∀ row,
    setting.codec.decodeRow (e.value.getD []) = .ok row → keyOf table row = .ok e.key

section Statements
variable {setting : Setting} {table : Table} {m : Contents} {s s' : Sys} {keys : List Value}

/-- What ScanTable shows of the keys. -/
theorem AtRest.keysAgree_iff (h : AtRest s m) (hb : s.begins + 1 < 2 ^ 64 - 1)
    (htable : HasTable setting.codec m table) :
    KeysAgree setting s table ↔ Keyed setting.codec m table := by
  have hscan : scanned setting s table =
      .ok ((under m (rowStart table)).map fun e => ⟨e.1, some e.2⟩) := by
    obtain ⟨s₁, hbegin, hsole⟩ := h.begin (n := setting.nil) hb
    obtain ⟨s₂, hcall, -⟩ :=
      hsole.answers (n := setting.nil) (c := .scanPrefix (rowStart table)) trivial
    unfold scanned
    rw [Prog.run_bind_ok _ (mvcc_run hbegin), run_mvcc, hcall]
    rfl
  unfold KeysAgree Keyed storedRows
  rw [hscan]
  constructor
  · rintro ⟨_, ⟨⟩, hagree⟩ p hp
    obtain ⟨e, he, rfl⟩ := List.mem_map.mp hp
    obtain ⟨row, hrow, -⟩ := htable.rows e he
    rw [hrow]
    exact hagree _ (List.mem_map_of_mem he) row hrow
  · refine fun hkeyed => ⟨_, rfl, fun entry hentry row hrow => ?_⟩
    obtain ⟨e, he, rfl⟩ := List.mem_map.mp hentry
    have hkey := hkeyed _ (List.mem_map_of_mem he)
    rw [show setting.codec.decodeRow e.2 = .ok row from hrow] at hkey
    exact hkey

/-- INSERTs that succeed one after another load the table. -/
theorem Loaded.inOrder {sqls : List Bytes} {inserts : List InsertStatement} {i : Nat}
    (hc : ReadsAs setting.codec jsonValue) (h : Loaded setting.codec jsonValue table m keys)
    (hrest : AtRest s m) (hb : s.begins + sqls.length < 2 ^ 64 - 1)
    (hparse : List.Forall₂ (fun sql statement => parse sql = .ok (.insert statement) ∧
      statement.tableName = table.name) sqls inserts)
    (hrun : inOrder setting i sqls s = some s') :
    ∃ m', AtRest s' m' ∧ s'.begins ≤ s.begins + sqls.length ∧
      Loaded setting.codec jsonValue table m' (keys ++ inserts.flatMap fun statement =>
        statement.values.filterMap (insertedKey table statement.columns)) := by
  induction hparse generalizing s m keys i with
  | nil =>
    cases hrun
    exact ⟨m, hrest, le_rfl, by simpa using h⟩
  | @cons sql statement sqls inserts hsql _ ih =>
    obtain ⟨hsql, hname⟩ := hsql
    rw [List.length_cons] at hb
    unfold SpaceDB.Proofs.inOrder at hrun
    generalize hexecute : setting.execute i sql s = r at hrun
    obtain ⟨answer, s₁⟩ := r
    cases answer with
    | error f => cases hrun
    | ok result =>
      obtain ⟨m₁, hserial, hrest₁, hbegins⟩ := hrest.step (by omega) hexecute
      have hplan := plan_insert hsql
      rw [hname] at hplan
      obtain ⟨n, -, hloop⟩ := h.has.insert_ok (serially_inv hplan hserial)
      obtain ⟨m', hrest', hbegins', hloaded⟩ := ih (h.rows hc hloop) hrest₁ (by omega) hrun
      refine ⟨m', hrest', by rw [List.length_cons]; omega, ?_⟩
      rw [List.flatMap_cons, ← List.append_assoc]
      exact hloaded

/-- An empty table. -/
theorem loaded_nil {codec : Codec} {read : Value → Value}
    (htable : (tables codec (.getTable table.name) m).1 = .ok (some table))
    (hempty : (tables codec (.scanTable table) m).1 = .ok []) : Loaded codec read table m [] := by
  obtain ⟨hhas, hrows⟩ := hasTable_of_scan htable hempty
  have hnone : storedRows codec m table = [] := List.map_eq_nil_iff.mp hrows.symm
  refine ⟨hhas, ?_, ?_⟩ <;> simp [hnone]

/-- The table was empty and then got the rows of some INSERTs. A DELETE of all
rows leaves it empty, and every row lies under its own key, exactly when every
string that is a primary key of these rows is UTF-8. -/
theorem delete_empties_iff {w : World} {sqls : List Bytes} {inserts : List InsertStatement}
    {deleteSql allSql : Bytes} (hc : ReadsAs setting.codec jsonValue) (h : setting.Reaches w)
    (hfinished : Finished w.sys) (hb : w.sys.begins + sqls.length < 2 ^ 64 - 3)
    (htable : setting.look w.sys (.getTable table.name) = .ok (some table))
    (hempty : setting.look w.sys (.scanTable table) = .ok [])
    (hparse : List.Forall₂ (fun sql statement => parse sql = .ok (.insert statement) ∧
      statement.tableName = table.name) sqls inserts)
    (i : Nat) (hrun : inOrder setting i sqls w.sys = some s)
    (hdelete : parse deleteSql = .ok (.delete ⟨table.name, none⟩))
    (hall : parse allSql = .ok (selectAll table.name none)) (j k : Nat) :
    (∃ n, (setting.execute j deleteSql s).1 = .ok (.delete n)) ∧
      ((∃ columns, (setting.execute k allSql (setting.execute j deleteSql s).2).1 =
        .ok (.rows columns [])) ↔
        ∀ statement ∈ inserts, ∀ es ∈ statement.values, ∀ text,
          insertedKey table statement.columns es = some (.string text) → Utf8.Valid text) ∧
      (KeysAgree setting s table ↔
        ∀ statement ∈ inserts, ∀ es ∈ statement.values, ∀ text,
          insertedKey table statement.columns es = some (.string text) → Utf8.Valid text) := by
  obtain ⟨m, hrest⟩ := (reaches_inv h (by omega)).atRest hfinished
  rw [hrest.look (by omega)] at htable hempty
  obtain ⟨m₁, hrest₁, hbegins, hloaded⟩ :=
    (loaded_nil htable hempty).inOrder hc hrest (by omega) hparse hrun
  have hb₁ : s.begins + 1 < 2 ^ 64 - 1 := by omega
  rw [List.nil_append] at hloaded
  obtain ⟨m₂, hdeleted, htable₂, hgone⟩ := hloaded.delete (setting.walks.order j)
  have hserial := serially_ok (plan_delete hdelete) hdeleted
  obtain ⟨hrest₂, hbegins₂⟩ := hrest₁.after hb₁ hserial
  have hkeys : (∀ v ∈ inserts.flatMap fun statement =>
      statement.values.filterMap (insertedKey table statement.columns), InUtf8 v) ↔
      ∀ statement ∈ inserts, ∀ es ∈ statement.values, ∀ text,
        insertedKey table statement.columns es = some (.string text) → Utf8.Valid text := by
    constructor
    · intro hvalid statement hstatement es hes text hkey
      exact hvalid (.string text)
        (List.mem_flatMap.mpr ⟨statement, hstatement, List.mem_filterMap.mpr ⟨es, hes, hkey⟩⟩)
    · intro hvalid v hv
      obtain ⟨statement, hstatement, hv⟩ := List.mem_flatMap.mp hv
      obtain ⟨es, hes, hkey⟩ := List.mem_filterMap.mp hv
      cases v with
      | string text => exact hvalid statement hstatement es hes text hkey
      | _ => exact trivial
  rw [← hkeys]
  refine ⟨⟨_, by rw [hrest₁.result hb₁, hserial]⟩, ?_, ?_⟩
  · rw [hrest₂.result (by omega), htable₂.serially_select hall rfl, ← hgone]
    simp
  · rw [hrest₁.keysAgree_iff hb₁ hloaded.has, hloaded.keyed_iff]

end Statements

/-- The table as GetTable returns it. Names are identifiers and so in ASCII. -/
def jsonTable (schema : Table) : Table :=
  { schema with columns := schema.columns.map fun c =>
    { c with default := c.default.map jsonValue } }

/-- A codec that treats the strings of rows and of defaults as JSON does. -/
def jsonCodec : Codec :=
  { serialCodec with
    encodeTable := fun table => serialCodec.encodeTable (jsonTable table)
    encodeRow := fun row => serialCodec.encodeRow (row.map jsonValue) }

theorem jsonCodec_reads : ReadsAs jsonCodec jsonValue := fun h => serialCodec_faithful.row h

def jsonSetting : Setting := { serialSetting with codec := jsonCodec }

def insertText (text : Bytes) : Bytes := ascii "INSERT INTO t VALUES ('" ++ text ++ ascii "', 1);"

def textTable : Table :=
  ⟨ascii "t", [⟨ascii "a", .string, false, none, true⟩,
    ⟨ascii "b", .integer, true, some .null, false⟩]⟩

def emptyTextTable : List Event := executed 0 "CREATE TABLE t (a STRING PRIMARY KEY, b INT);" 4

def textRow (text : Bytes) : List Expression :=
  [⟨.stringLiteral, .string text⟩, ⟨.integerLiteral, .int64 (.wrap 1)⟩]

/-- With ASCII and two bytes that are one character. -/
theorem delete_empties_iff_accent : ∃ w s, jsonSetting.Reaches w ∧
    inOrder jsonSetting 1 [insertText (ascii "x"), insertText [0xC3, 0xA9]] w.sys = some s ∧
    (∃ n, (jsonSetting.execute 3 (ascii "DELETE FROM t;") s).1 = .ok (.delete n)) ∧
    (∃ columns, (jsonSetting.execute 4 (ascii "SELECT * FROM t;")
      (jsonSetting.execute 3 (ascii "DELETE FROM t;") s).2).1 = .ok (.rows columns [])) ∧
    KeysAgree jsonSetting s textTable := by
  have hobserve : (jsonSetting.run .init emptyTextTable).bind (fun w =>
      if w.sys.begins = 1 ∧ allEnded w.sys = true ∧
          jsonSetting.look w.sys (.getTable textTable.name) = .ok (some textTable) ∧
          jsonSetting.look w.sys (.scanTable textTable) = .ok [] then
        some (inOrder jsonSetting 1 [insertText (ascii "x"), insertText [0xC3, 0xA9]] w.sys).isSome
      else none) = some true := by decide +kernel
  obtain ⟨w, hrun, hw⟩ := Option.bind_eq_some_iff.mp hobserve
  split_ifs at hw with hchecks
  obtain ⟨hbegins, hended, htable, hempty⟩ := hchecks
  obtain ⟨s, hs⟩ := Option.isSome_iff_exists.mp (Option.some.inj hw)
  have hreaches : jsonSetting.Reaches w := ⟨_, hrun⟩
  have hfinished : Finished w.sys :=
    finished_of_allEnded (reaches_inv hreaches (by omega)).bound hended
  have hparse : List.Forall₂ (fun sql statement => parse sql = .ok (.insert statement) ∧
      statement.tableName = textTable.name) [insertText (ascii "x"), insertText [0xC3, 0xA9]]
      [⟨ascii "t", [], [textRow (ascii "x")]⟩, ⟨ascii "t", [], [textRow [0xC3, 0xA9]]⟩] :=
    .cons (by decide +kernel) (.cons (by decide +kernel) .nil)
  obtain ⟨hdelete, hempties, hagree⟩ := delete_empties_iff jsonCodec_reads hreaches hfinished
    (by simp; omega) htable hempty hparse 1 hs
    (by decide +kernel : parse (ascii "DELETE FROM t;") = .ok (.delete ⟨textTable.name, none⟩))
    (by decide +kernel : parse (ascii "SELECT * FROM t;") = .ok (selectAll textTable.name none)) 3 4
  have hvalid : ∀ text, insertedKey textTable [] (textRow text) =
      some (.string text) := fun _ => rfl
  refine ⟨w, s, hreaches, hs, hdelete, hempties.mpr ?_, hagree.mpr ?_⟩ <;>
    · simp only [List.mem_cons, List.not_mem_nil, or_false, forall_eq_or_imp, forall_eq, hvalid,
        Option.some.injEq, Value.string.injEq, forall_eq']
      decide

/-- The byte 0xFF is replaced in the row but not in its key. The DELETE counts
the row and leaves it where it is. -/
theorem row_left_after_delete : ∃ w s, jsonSetting.Reaches w ∧ Finished w.sys ∧
    inOrder jsonSetting 1 [insertText [0xFF]] w.sys = some s ∧
    (jsonSetting.execute 2 (ascii "DELETE FROM t;") s).1 = .ok (.delete 1) ∧
    (jsonSetting.execute 3 (ascii "SELECT * FROM t;")
      (jsonSetting.execute 2 (ascii "DELETE FROM t;") s).2).1 =
      .ok (.rows [ascii "a", ascii "b"] [[.string Utf8.replacement, .integer ⟨1, by decide⟩]]) := by
  have hobserve : (jsonSetting.run .init emptyTextTable).bind (fun w =>
      if w.sys.begins = 1 ∧ allEnded w.sys = true then
        (inOrder jsonSetting 1 [insertText [0xFF]] w.sys).map fun s =>
          ((jsonSetting.execute 2 (ascii "DELETE FROM t;") s).1,
            (jsonSetting.execute 3 (ascii "SELECT * FROM t;")
              (jsonSetting.execute 2 (ascii "DELETE FROM t;") s).2).1)
      else none) = some (.ok (.delete 1),
        .ok (.rows [ascii "a", ascii "b"]
          [[.string Utf8.replacement, .integer ⟨1, by decide⟩]])) := by
    decide +kernel
  obtain ⟨w, hrun, hw⟩ := Option.bind_eq_some_iff.mp hobserve
  split_ifs at hw with hchecks
  obtain ⟨s, hs, hresults⟩ := Option.map_eq_some_iff.mp hw
  obtain ⟨hdeleted, hleft⟩ := Prod.mk.inj hresults
  have hreaches : jsonSetting.Reaches w := ⟨_, hrun⟩
  exact ⟨w, s, hreaches, finished_of_allEnded (reaches_inv hreaches (by omega)).bound hchecks.2, hs,
    hdeleted, hleft⟩

end SpaceDB.Proofs
