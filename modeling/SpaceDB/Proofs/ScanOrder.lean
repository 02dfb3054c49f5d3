import SpaceDB.Proofs.Clients
import SpaceDB.Proofs.InsertedRows
import SpaceDB.Proofs.PrimaryKeys
import SpaceDB.Proofs.Updates

namespace SpaceDB.Proofs
open Lib Storage Sql Engine

variable {codec : Codec} {m : Contents} {table : Table} {row : Row}

def InKeyOrder (table : Table) (rows : List Row) : Prop :=
  rows.Pairwise fun a b => ∃ x y, table.primaryKeyValue a = .ok x ∧
    table.primaryKeyValue b = .ok y ∧
    x.compare y = .ok (-1)

def ExactKey (table : Table) : Prop :=
  ∀ c ∈ table.columns, c.primaryKey = true → c.dataType ∈ [.integer, .boolean, .string]

instance (table : Table) : Decidable (ExactKey table) := by
  unfold ExactKey
  infer_instance

/-- What lies under the prefix of a table are its rows. -/
theorem KeyedStore.row_under (h : KeyedStore codec m.find?) (ht : codec.Holds m.find? table) :
    ∀ e ∈ under m (rowStart table), ∃ row, codec.decodeRow e.2 = .ok row ∧
      validateRow table row = .ok () ∧ keyOf table row = .ok e.1 := by
  intro e he
  obtain ⟨hstart, hfind⟩ := mem_under.mp he
  obtain ⟨rest, hrest⟩ := hstart
  have hkey : keyNamespaceRow :: (table.name ++ [keySeparator] ++ rest) = e.1 := hrest
  rw [← hkey] at hfind
  obtain ⟨table', row, ht', hdecoded, hvalid, hrow⟩ := h.rows hfind
  rw [hkey] at hrow
  -- The key names one table only, so the row belongs to this one.
  obtain ⟨hseparated, hvalidated⟩ := h.held ht
  have hnamed := (validate_ok hvalidated).named
  obtain ⟨pk, -, hpk⟩ := keyOf_ok hrow
  have hsame : table.name = table'.name :=
    rowKey_separated hseparated (h.held ht').1 (rowPrefixKey_eq hnamed) hpk ⟨rest, hrest⟩
  obtain ⟨encoded, hstored, htable⟩ := ht
  obtain ⟨encoded', hstored', htable'⟩ := ht'
  rw [← hsame, hstored] at hstored'
  cases hstored'
  rw [htable] at htable'
  cases htable'
  exact ⟨row, hdecoded, hvalid, hrow⟩

theorem KeyedStore.hasTable (h : KeyedStore codec m.find?) (ht : codec.Holds m.find? table) :
    HasTable codec m table ∧
      ∀ p ∈ storedRows codec m table, validateRow table p.2 = .ok () ∧
      keyOf table p.2 = .ok p.1 := by
  refine ⟨⟨(validate_ok (h.held ht).2).named, ht, ?_⟩, ?_⟩
  · intro e he
    obtain ⟨row, hdecoded, hvalid, -⟩ := h.row_under ht e he
    exact ⟨row, hdecoded, validateRow_length hvalid⟩
  · intro p hp
    obtain ⟨e, he, rfl⟩ := List.mem_map.mp hp
    obtain ⟨row, hdecoded, hvalid, hkey⟩ := h.row_under ht e he
    simp only [hdecoded, Except.toOption, Option.getD_some]
    exact ⟨hvalid, hkey⟩

/-- The primary key of a valid row has the type of the key column. -/
theorem key_dataType {pk : Value} (htable : table.validate = .ok ())
    (hrow : validateRow table row = .ok ())
    (hpk : table.primaryKeyValue row = .ok pk) :
    ∃ i c, keyColumn table = some i ∧ table.columns[i]? = some c ∧ c.primaryKey = true ∧
      pk.dataType = some c.dataType := by
  obtain ⟨-, i, hi, hvalue⟩ := primaryKeyValue_iff.mp hpk
  obtain ⟨hlt, hkey, -⟩ := List.findIdx?_eq_some_iff_getElem.mp hi
  have hc : table.columns[i]? = some table.columns[i] := List.getElem?_eq_getElem hlt
  have hfits := (validateRow_ok_iff.mp hrow).2 i _ pk hc hvalue
  have hnull := ((validate_ok htable).columns _ (List.getElem_mem hlt)).key hkey
  refine ⟨i, _, hi, hc, hkey, ?_⟩
  unfold FitsColumn at hfits
  split at hfits
  next htype =>
    rw [hnull] at hfits
    cases hfits
  next type htype => rw [htype, hfits]

/-- Values of one type, other than floats, are ordered as their keys are. -/
theorem compare_exact {x y : Value} (htype : x.dataType = y.dataType)
    (hx : x.dataType ≠ some .float) :
    x.compare y = .ok (bytesCompare (encodePrimaryKey x) (encodePrimaryKey y)) := by
  have hnumber : ∀ {v : Value}, v.dataType ≠ some .float → IsNumber v := by
    intro v hv
    cases v with
    | float f => exact absurd rfl hv
    | _ => trivial
  refine compare_keys ?_ (hnumber hx) (hnumber (htype ▸ hx)) ?_
  · cases x <;> cases y <;> first | rfl | cases htype
  · cases x with
    | float f => exact absurd rfl hx
    | _ => exact id

/-- Two rows of one table are in the order of their keys. -/
theorem keys_in_order {a b : Row} {k l : Bytes} (htable : table.validate = .ok ())
    (hexact : ExactKey table)
    (ha : validateRow table a = .ok ()) (hb : validateRow table b = .ok ())
    (hk : keyOf table a = .ok k) (hl : keyOf table b = .ok l) (hlt : k < l) :
    ∃ x y, table.primaryKeyValue a = .ok x ∧ table.primaryKeyValue b = .ok y ∧
      x.compare y = .ok (-1) := by
  obtain ⟨x, hx, hxk⟩ := keyOf_ok hk
  obtain ⟨y, hy, hyl⟩ := keyOf_ok hl
  refine ⟨x, y, hx, hy, ?_⟩
  obtain ⟨i, c, hi, hc, hkey, hxtype⟩ := key_dataType htable ha hx
  obtain ⟨j, d, hj, hd, -, hytype⟩ := key_dataType htable hb hy
  rw [hi] at hj
  cases hj
  rw [hc] at hd
  cases hd
  have hexact := hexact c (List.mem_of_getElem? hc) hkey
  have hnamed := (validate_ok htable).named
  rw [rowKey_eq hnamed] at hxk hyl
  cases hxk
  cases hyl
  have hbytes : encodePrimaryKey x < encodePrimaryKey y := append_lt_append_left.mp hlt
  have hfloat : c.dataType ≠ .float := by
    intro heq
    simp [heq] at hexact
  rw [compare_exact (hxtype.trans hytype.symm) (by simp [hxtype, hfloat])]
  exact congrArg Except.ok (if_pos hbytes)

section Scans
variable {setting : Setting} {s : Sys} {t : Nat}

/-- A scan of a transaction is a scan of the map that it sees. -/
theorem Reader.scanTable {db : Db} (h : Reader s (some t) db) (hm : Holding db m) (table : Table) :
    setting.ask s t (.scanTable table) = (tables setting.codec (.scanTable table) m).1 := by
  refine ((scanTable_guarded setting.codec table).run_refines (h := serve setting.nil) (k := direct)
    (R := fun w m' => w = (s, some t) ∧ m' = m) ?_ ⟨rfl, rfl⟩).1
  rintro c _ _ hcall ⟨rfl, rfl⟩
  rcases hcall with rfl | rfl
  · rw [h.get, hm]
    exact ⟨rfl, rfl, rfl⟩
  · rw [h.scan_under hm]
    exact ⟨rfl, rfl, rfl⟩

/-- In every world that sessions and programs lead to, with table names without
a zero byte and before the versions run out, every transaction scans its tables
in the order of their primary keys. -/
theorem scans_in_key_order {w : World} (hc : Faithful setting.codec)
    (h : setting.Used (keySeparator ∉ ·) w) (hb : w.sys.begins < 2 ^ 64 - 1)
    (hsees : setting.Sees w.sys t table) (hexact : ExactKey table) :
    ∃ rows, setting.ask w.sys t (.scanTable table) = .ok rows ∧ InKeyOrder table rows := by
  have htidy := used_tidy hc h hb
  obtain ⟨x, hl, hholds⟩ := hsees
  have hx := (live_iff.mp hl).1
  obtain ⟨base, hbase⟩ := holding_database w.sys x.seen
  obtain ⟨m, hm⟩ := holding_writes hbase x.writes
  have hreader : Reader w.sys (some t) (applyWrites (w.sys.database x.seen) x.writes) :=
    ⟨htidy.executing.sys, hb, t, x, rfl, hl, rfl⟩
  have hkeyed := (htidy.views hx).1
  rw [funext hm] at hkeyed hholds
  obtain ⟨htable, hrows⟩ := hkeyed.hasTable hholds
  refine ⟨(storedRows setting.codec m table).map Prod.snd, ?_, ?_⟩
  · rw [hreader.scanTable hm, htable.scanTable]
  · apply List.pairwise_map.mpr
    apply (storedRows_sorted setting.codec m table).imp_of_mem
    intro p q hp hq hlt
    obtain ⟨hpvalid, hpkey⟩ := hrows p hp
    obtain ⟨hqvalid, hqkey⟩ := hrows q hq
    exact keys_in_order (hkeyed.held hholds).2 hexact hpvalid hqvalid hpkey hqkey hlt

end Scans

def calls : List TxnCall → ExecM ResultSet
  | [] => .done (.rows [] [])
  | c :: cs => (txn c).bind fun _ => calls cs

section Programs
variable {names : Bytes → Prop} {cs : List TxnCall} {w w' : World}

theorem careful_calls (h : ∀ c ∈ cs, ∀ known, Permitted names known c) (known : List Table) :
    Careful names known (calls cs) := by
  induction cs generalizing known with
  | nil => trivial
  | cons c cs ih =>
    obtain ⟨hc, hcs⟩ := List.forall_mem_cons.mp h
    refine ⟨hc known, fun r hr => ?_⟩
    cases r with
    | ok a => exact ih hcs _
    | error e =>
      cases e with
      | error e => exact ⟨e, rfl⟩
      | panic message => exact absurd rfl (hr message)

theorem used_run {setting : Setting} {events : List Event} (h : setting.Used names w)
    (hrun : setting.run w events = some w') : setting.Used names w' := by
  induction events generalizing w with
  | nil =>
    cases hrun
    exact h
  | cons e events ih =>
    obtain ⟨m, hm, hrest⟩ := Option.bind_eq_some_iff.mp hrun
    exact ih (h.event hm) hrest

theorem used_reaches {setting : Setting} (h : setting.Reaches w) : setting.Used names w := by
  obtain ⟨events, hrun⟩ := h
  exact used_run .init hrun

def afterCalls (w : World) (cs : List TxnCall) (steps : Nat) : Option World :=
  (serialSetting.step (serialSetting.join w (calls cs)) (.advance w.started)).bind
    (serialSetting.run · (.replicate steps (.advance w.started)))

theorem used_afterCalls {steps : Nat} (h : serialSetting.Used names w)
    (hcs : ∀ c ∈ cs, ∀ known, Permitted names known c) (hcalled : afterCalls w cs steps = some w') :
    serialSetting.Used names w' := by
  obtain ⟨m, hm, hrun⟩ := Option.bind_eq_some_iff.mp hcalled
  have hheld : ∀ table ∈ ([] : List Table),
      serialSetting.codec.Holds (w.sys.database w.sys.commits) table := List.forall_mem_nil _
  exact used_run (h.begin hheld (careful_calls hcs []) hm) hrun

/-- A table that the transaction has created itself. -/
theorem sees_created {s : Sys} {t : Nat}
    (h : (s.live t).map (fun x => lastWrite x.writes (keyNamespaceTable :: table.name)) =
      some (some (some (tableSerial.put table)))) : serialSetting.Sees s t table := by
  obtain ⟨x, hl, hx⟩ := Option.map_eq_some_iff.mp h
  refine ⟨x, hl, tableSerial.put table, ?_, fromSerial_put tableSerial table⟩
  rw [applyWrites_eq, hx]
  rfl

/-- Two rows that are not in order. -/
theorem not_inKeyOrder {a b : Row} {x y : Value} (ha : table.primaryKeyValue a = .ok x)
    (hb : table.primaryKeyValue b = .ok y) (hxy : x.compare y ≠ .ok (-1)) :
    ¬ InKeyOrder table [a, b] := by
  intro h
  obtain ⟨x', y', hx', hy', hlt⟩ := (List.pairwise_cons.mp h).1 b (by simp)
  rw [ha] at hx'
  rw [hb] at hy'
  cases hx'
  cases hy'
  exact hxy hlt

end Programs

def negativeRows : List TxnCall :=
  [.createTable (tableOf "t"), .createRow (ascii "t") (rowOfInteger (.wrap 3)),
    .createRow (ascii "t") (rowOfInteger (.wrap (-2)))]

theorem scans_in_key_order_negative : ∃ w, serialSetting.Used (keySeparator ∉ ·) w ∧
    serialSetting.Sees w.sys 0 (tableOf "t") ∧
    serialSetting.ask w.sys 0 (.scanTable (tableOf "t")) =
      .ok [rowOfInteger ⟨-2, by decide⟩, rowOfInteger ⟨3, by decide⟩] ∧
    InKeyOrder (tableOf "t") [rowOfInteger ⟨-2, by decide⟩, rowOfInteger ⟨3, by decide⟩] := by
  have hrun : ((afterCalls .init negativeRows 8).bind fun w =>
      if w.sys.begins = 1 ∧ (w.sys.live 0).map (fun x => lastWrite x.writes
          (keyNamespaceTable :: (tableOf "t").name)) =
          some (some (some (tableSerial.put (tableOf "t")))) ∧
        serialSetting.ask w.sys 0 (.scanTable (tableOf "t")) =
          .ok [rowOfInteger ⟨-2, by decide⟩, rowOfInteger ⟨3, by decide⟩] then some () else none) =
          some () := by
    decide +kernel
  obtain ⟨w, hw, hcheck⟩ := Option.bind_eq_some_iff.mp hrun
  split_ifs at hcheck with h
  obtain ⟨hbegins, hcreated, hscan⟩ := h
  have hcs : ∀ c ∈ negativeRows, ∀ known, Permitted (keySeparator ∉ ·) known c := by
    simp [negativeRows, Permitted, tableOf, ascii, keySeparator]
  have hused := used_afterCalls .init hcs hw
  obtain ⟨rows, hrows, horder⟩ := scans_in_key_order serialCodec_faithful hused (by omega)
    (sees_created hcreated) (by decide)
  rw [hscan] at hrows
  cases hrows
  exact ⟨w, hused, sees_created hcreated, hscan, horder⟩

def nested : Table := ⟨ascii "t" ++ [keySeparator], (tableOf "t").columns⟩

def nestedRows : List TxnCall :=
  [.createTable (tableOf "t"), .createTable nested, .createRow (ascii "t") (rowOfInteger (.wrap 3)),
    .createRow nested.name (rowOfInteger (.wrap 5))]

def swapped : Table :=
  ⟨ascii "t", [⟨ascii "a", .integer, true, some .null, false⟩,
    ⟨ascii "b", .integer, false, none, true⟩]⟩

def crossing : List Event :=
  executed 0 "CREATE TABLE t (a INT PRIMARY KEY, b INT);" 4 ++
    executed 1 "INSERT INTO t VALUES (1, 20), (2, 10);" 9

def crossingRows : List Row :=
  [pairRow (.wrap 1) (.integer (.wrap 20)), pairRow (.wrap 2) (.integer (.wrap 10))]

def crossingRecords : List (Bytes × Version × Bytes) :=
  (keyNamespaceTable :: ascii "t", 1, tableSerial.put pairTable) ::
    crossingRows.map fun row =>
      (keyFor pairTable (row.headD .null), 2, valueSerial.list.put row)

def lastCrossing : World :=
  resumedWorld (committedData crossingRecords) (2 + (2 ^ 64 - 4)) (2 + (2 ^ 64 - 4))

/-- The transaction with the last version does not find the table and creates it
with another key; its scan still finds the rows. -/
theorem recreated_at_last_version : ∃ w t, serialSetting.Used (keySeparator ∉ ·) w ∧
    w.sys.begins = 2 ^ 64 - 1 ∧ serialSetting.Sees w.sys t swapped ∧
    serialSetting.ask w.sys t (.scanTable swapped) = .ok crossingRows := by
  obtain ⟨w, hreaches, hbegins, hresumes, -⟩ := world_rounds crossingRecords crossing
    [0, 1] (a := 2) (b := 2) (2 ^ 64 - 4) (by decide) (by decide) (by decide) (by decide +kernel)
  have hrun : ((afterCalls lastCrossing [.createTable swapped] 2).bind fun v =>
      if v.sys.begins = 2 ^ 64 - 1 ∧ (v.sys.live (2 ^ 64 - 2)).map (fun x => lastWrite x.writes
          (keyNamespaceTable :: swapped.name)) = some (some (some (tableSerial.put swapped))) ∧
        serialSetting.ask v.sys (2 ^ 64 - 2) (.scanTable swapped) = .ok crossingRows
      then some () else none) = some () := by
    decide +kernel
  obtain ⟨v, hv, hcheck⟩ := Option.bind_eq_some_iff.mp hrun
  split_ifs at hcheck with h
  obtain ⟨hlast, hcreated, hscan⟩ := h
  obtain ⟨v₁, hv₁, hsteps⟩ := Option.bind_eq_some_iff.mp hv
  -- the same in the world that has really come so far
  have hopened := hresumes.opened [] (KVEngine.transact serialCodec (calls [.createTable swapped]))
  obtain ⟨w₁, hw₁, hresumes₁⟩ := hopened.advance hv₁
  have hcalm : ∀ e ∈ List.replicate 2 (Event.advance lastCrossing.started), calm e := by
    intro e he
    rw [List.eq_of_mem_replicate he]
    trivial
  obtain ⟨w', hw', hresumes'⟩ := hresumes₁.run hcalm hsteps
  have hcalled : afterCalls w [.createTable swapped] 2 = some w' := by
    have hstarted : w.started = lastCrossing.started := hresumes.started
    have hstep : serialSetting.step (serialSetting.join w (calls [.createTable swapped]))
        (.advance lastCrossing.started) = some w₁ := hw₁
    unfold afterCalls
    rw [hstarted, hstep]
    exact hw'
  have hcs : ∀ c ∈ [TxnCall.createTable swapped], ∀ known,
      Permitted (keySeparator ∉ ·) known c := by
    simp [Permitted, swapped, ascii, keySeparator]
  have hold : w.sys.begins ≤ 2 ^ 64 - 2 := by omega
  refine ⟨w', 2 ^ 64 - 2, used_afterCalls (used_reaches hreaches) hcs hcalled, ?_, ?_, ?_⟩
  · rw [hresumes'.sys]
    exact hlast
  · apply sees_created
    rw [hresumes'.sys, after_live hold, Option.map_map]
    exact hcreated
  · unfold Setting.ask
    rw [hresumes'.sys, session_after _ hresumes'.begins (by simpa using hold)]
    exact hscan

/-- The rows come back in another order when the versions have run out, and when
the name of a table contains the separator. -/
theorem scans_out_of_key_order :
    (∃ w t table rows, serialSetting.Used (keySeparator ∉ ·) w ∧ w.sys.begins = 2 ^ 64 - 1 ∧
      serialSetting.Sees w.sys t table ∧ ExactKey table ∧
      serialSetting.ask w.sys t (.scanTable table) = .ok rows ∧ ¬ InKeyOrder table rows) ∧
    ∃ w t table rows, serialSetting.Used (fun _ => True) w ∧ w.sys.begins = 1 ∧
      serialSetting.Sees w.sys t table ∧ ExactKey table ∧
      serialSetting.ask w.sys t (.scanTable table) = .ok rows ∧ ¬ InKeyOrder table rows := by
  constructor
  · obtain ⟨w, t, hused, hbegins, hsees, hscan⟩ := recreated_at_last_version
    refine ⟨w, t, swapped, crossingRows, hused, hbegins, hsees, by decide, hscan, ?_⟩
    have hfirst : swapped.primaryKeyValue (pairRow ⟨1, by decide⟩ (.integer ⟨20, by decide⟩)) =
        .ok (.integer ⟨20, by decide⟩) := by decide
    have hsecond : swapped.primaryKeyValue (pairRow ⟨2, by decide⟩ (.integer ⟨10, by decide⟩)) =
        .ok (.integer ⟨10, by decide⟩) := by decide
    exact not_inKeyOrder hfirst hsecond (by decide)
  · have hrun : ((afterCalls .init nestedRows 10).bind fun w =>
        if w.sys.begins = 1 ∧ (w.sys.live 0).map (fun x => lastWrite x.writes
            (keyNamespaceTable :: (tableOf "t").name)) =
            some (some (some (tableSerial.put (tableOf "t")))) ∧
          serialSetting.ask w.sys 0 (.scanTable (tableOf "t")) =
            .ok [rowOfInteger ⟨5, by decide⟩, rowOfInteger ⟨3, by decide⟩] then some () else none) =
            some () := by
      decide +kernel
    obtain ⟨w, hw, hcheck⟩ := Option.bind_eq_some_iff.mp hrun
    split_ifs at hcheck with h
    obtain ⟨hbegins, hcreated, hscan⟩ := h
    have hcs : ∀ c ∈ nestedRows, ∀ known, Permitted (fun _ => True) known c := by
      simp [nestedRows, Permitted]
    have hfirst : (tableOf "t").primaryKeyValue (rowOfInteger ⟨5, by decide⟩) =
        .ok (.integer ⟨5, by decide⟩) := by decide
    have hsecond : (tableOf "t").primaryKeyValue (rowOfInteger ⟨3, by decide⟩) =
        .ok (.integer ⟨3, by decide⟩) := by decide
    exact ⟨w, 0, tableOf "t", _, used_afterCalls .init hcs hw, hbegins,
      sees_created hcreated, by decide,
      hscan, not_inKeyOrder hfirst hsecond (by decide)⟩

end SpaceDB.Proofs
