import SpaceDB.Engine.Relations
import SpaceDB.Lib.Simulation
import SpaceDB.Proofs.StoredTables

namespace SpaceDB.Proofs
open Lib Storage Sql Engine

variable {codec : Codec} {m : Contents} {d : Relations} {name : Bytes} {r : Relation}

def rowBytes (name key : Bytes) : Bytes := keyNamespaceRow :: name ++ keySeparator :: key

/-- The map holds the tables and rows of the relations, in JSON and under their
keys. -/
structure Represents (codec : Codec) (m : Contents) (d : Relations) : Prop where
  catalog : ∀ name, (m.find? (keyNamespaceTable :: name)).map codec.decodeTable =
    (d.find name).map fun r => .ok r.table
  rows : ∀ {name}, keySeparator ∉ name → ∀ key, (m.find? (rowBytes name key)).map codec.decodeRow =
    (d.row name key).map .ok
  separated : ∀ {name r}, d.find name = some r → keySeparator ∉ name

/-- Table name and primary key can be told apart in a key. -/
theorem rowBytes_eq_iff {a b x y : Bytes} (ha : keySeparator ∉ a) (hb : keySeparator ∉ b) :
    rowBytes a x = rowBytes b y ↔ a = b ∧ x = y := by
  constructor
  · intro h
    have htail : a ++ keySeparator :: x = b ++ keySeparator :: y := List.cons.inj h |>.2
    obtain rfl := name_of_key ha hb htail
    simpa using htail
  · rintro ⟨rfl, rfl⟩
    rfl

theorem rowBytes_ne_table (name key other : Bytes) :
    rowBytes name key ≠ keyNamespaceTable :: other := by
  simp [rowBytes, keyNamespaceRow, keyNamespaceTable]

section States

theorem find_set (d : Relations) (r : Relation) (name : Bytes) :
    (d.set r).find name = if name = r.table.name then some r else d.find name := by
  simp [Relations.set, Function.update_apply]

theorem row_of_find (hr : d.find name = some r) (key : Bytes) :
    d.row name key = r.rows.find? key := by
  rw [Relations.row, hr]
  rfl

theorem row_set (d : Relations) (r : Relation) (name key : Bytes) :
    (d.set r).row name key = if name = r.table.name then r.rows.find? key else d.row name key := by
  rw [Relations.row, find_set]
  split_ifs <;> rfl

/-- A relation is replaced by one with the same table; the row keys of the other
tables are untouched. -/
theorem Represents.change {m' : Contents} {r' : Relation} (h : Represents codec m d)
    (hr : d.find name = some r) (htable : r'.table = r.table)
    (htables : ∀ other, m'.find? (keyNamespaceTable :: other) =
      m.find? (keyNamespaceTable :: other))
    (hothers : ∀ {other}, other ≠ name → keySeparator ∉ other → ∀ key,
      m'.find? (rowBytes other key) = m.find? (rowBytes other key))
    (hrows : ∀ key, (m'.find? (rowBytes name key)).map codec.decodeRow =
      (r'.rows.find? key).map .ok) :
    Represents codec m' (d.set r') := by
  have hname : r'.table.name = name := htable ▸ d.named hr
  refine ⟨fun other => ?_, fun {other} hother key => ?_, fun {other s} hs => ?_⟩
  · rw [htables, h.catalog, find_set, hname]
    split_ifs with heq
    · rw [heq, hr]
      simp [htable]
    · rfl
  · rw [row_set, hname]
    split_ifs with heq
    · rw [heq]
      exact hrows key
    · rw [hothers heq hother]
      exact h.rows hother key
  · rw [find_set, hname] at hs
    split_ifs at hs with heq
    · exact heq ▸ h.separated hr
    · exact h.separated hs

theorem Represents.find_row (h : Represents codec m d) (hr : d.find name = some r) (key : Bytes) :
    (m.find? (rowBytes name key)).map codec.decodeRow = (r.rows.find? key).map .ok := by
  rw [h.rows (h.separated hr), row_of_find hr]

/-- A row is stored. -/
theorem Represents.put {encoded : Bytes} {pk : Value} {row : Row} (h : Represents codec m d)
    (hr : d.find name = some r) (hrow : RowOf r.table pk row)
    (hdecoded : codec.decodeRow encoded = .ok row) :
    Represents codec (m.insert (rowBytes name (encodePrimaryKey pk)) encoded)
      (d.set (r.put pk row hrow)) := by
  have hname := h.separated hr
  refine h.change hr rfl (fun other => ?_) (fun hne hother key => ?_) (fun key => ?_)
  · rw [OrderedMap.find?_insert, if_neg (rowBytes_ne_table _ _ _).symm]
  · rw [OrderedMap.find?_insert, if_neg]
    exact fun heq => hne ((rowBytes_eq_iff hother hname).mp heq).1
  · change _ = ((r.rows.insert _ _).find? key).map _
    rw [OrderedMap.find?_insert, OrderedMap.find?_insert]
    simp only [rowBytes_eq_iff hname hname, true_and]
    split_ifs with hkey
    · simp [hdecoded]
    · exact h.find_row hr key

/-- A row is removed. -/
theorem Represents.remove (h : Represents codec m d) (hr : d.find name = some r) (pk : Value) :
    Represents codec (m.erase (rowBytes name (encodePrimaryKey pk))) (d.set (r.remove pk)) := by
  have hname := h.separated hr
  refine h.change hr rfl (fun other => ?_) (fun hne hother key => ?_) (fun key => ?_)
  · rw [OrderedMap.find?_erase, if_neg (rowBytes_ne_table _ _ _).symm]
  · rw [OrderedMap.find?_erase, if_neg]
    exact fun heq => hne ((rowBytes_eq_iff hother hname).mp heq).1
  · change _ = ((r.rows.erase _).find? key).map _
    rw [OrderedMap.find?_erase, OrderedMap.find?_erase]
    simp only [rowBytes_eq_iff hname hname, true_and]
    split_ifs with hkey
    · rfl
    · exact h.find_row hr key

/-- A table without rows is added. -/
theorem Represents.add {encoded : Bytes} {table : Table} (h : Represents codec m d)
    (hnone : d.find table.name = none) (hname : keySeparator ∉ table.name)
    (hdecoded : codec.decodeTable encoded = .ok table) :
    Represents codec (m.insert (keyNamespaceTable :: table.name) encoded) (d.set (.new table)) := by
  have hnew : (Relation.new table).table.name = table.name := rfl
  refine ⟨fun other => ?_, fun {other} hother key => ?_, fun {other s} hs => ?_⟩
  · rw [OrderedMap.find?_insert, find_set, hnew]
    simp only [List.cons.injEq, true_and]
    split_ifs with heq
    · simp [hdecoded, Relation.new]
    · exact h.catalog other
  · rw [OrderedMap.find?_insert, if_neg (rowBytes_ne_table _ _ _), h.rows hother, row_set, hnew]
    split_ifs with heq
    · rw [heq, Relations.row, hnone]
      rfl
    · rfl
  · rw [find_set, hnew] at hs
    split_ifs at hs with heq
    · exact heq ▸ hname
    · exact h.separated hs

def schemas (d : Relations) (name : Bytes) : Option Table := (d.find name).map Relation.table

theorem schemas_set {r' : Relation} (hr : d.find name = some r) (htable : r'.table = r.table) :
    schemas (d.set r') = schemas d := by
  have hname : r'.table.name = name := htable ▸ d.named hr
  funext other
  rw [schemas, schemas, find_set, hname]
  split_ifs with heq
  · rw [heq, hr]
    simp [htable]
  · rfl

theorem set_set {r r' : Relation} (h : r'.table.name = r.table.name) :
    (d.set r).set r' = d.set r' := by
  ext1
  funext other
  simp only [find_set, h]
  split_ifs <;> rfl

end States

section Existence
variable {table : Table} {key encoded : Bytes}

theorem rowBytes_lt (name : Bytes) : StrictMono (rowBytes name) := by
  intro a b hab
  have hlt := (append_lt_append_left (p := keyNamespaceRow :: name ++ [keySeparator])).mpr hab
  simpa [rowBytes] using hlt

theorem StoredTable.unique {db : Db} {table' : Table} (h : StoredTable codec db name table)
    (h' : StoredTable codec db name table') : table = table' := by
  obtain ⟨encoded, hstored, hdecoded⟩ := h.stored
  obtain ⟨encoded', hstored', hdecoded'⟩ := h'.stored
  rw [hstored] at hstored'
  cases hstored'
  exact Except.ok.inj (hdecoded.symm.trans hdecoded')

/-- What lies under the row keys of a name is a row of the table of that name. -/
theorem RowStore.row_of (h : RowStore codec m.find?) (hname : keySeparator ∉ name)
    (hfind : m.find? (rowBytes name key) = some encoded) :
    ∃ table row pk, StoredTable codec m.find? name table ∧ codec.decodeRow encoded = .ok row ∧
      RowOf table pk row ∧ key = encodePrimaryKey pk := by
  obtain ⟨name', table, row, htable, hrow⟩ := h.rows hfind
  obtain ⟨pk, hpk, hkey⟩ := hrow.key
  have hbytes : rowBytes name key = rowBytes name' (encodePrimaryKey pk) := by
    have hkey := rowKey_ok hkey
    rw [htable.ok.named] at hkey
    simpa [rowBytes] using hkey
  obtain ⟨rfl, rfl⟩ := (rowBytes_eq_iff hname htable.ok.separated).mp hbytes
  exact ⟨table, row, pk, htable, hrow.decoded, ⟨hrow.valid, hpk⟩, rfl⟩

/-- The rows under a table's prefix make a relation. -/
theorem RowStore.relation (h : RowStore codec m.find?) (ht : StoredTable codec m.find? name table) :
    ∃ r : Relation, r.table = table ∧
      ∀ key, (m.find? (rowBytes name key)).map codec.decodeRow = (r.rows.find? key).map .ok := by
  obtain ⟨encodings, hencodings⟩ := m.exists_pullback (rowBytes_lt name)
  let rows := encodings.mapValues fun encoded => (codec.decodeRow encoded).toOption.getD []
  have hrows : ∀ key, rows.find? key = (m.find? (rowBytes name key)).map fun encoded =>
      (codec.decodeRow encoded).toOption.getD [] := by
    intro key
    rw [OrderedMap.find?_mapValues, hencodings]
  refine ⟨⟨table, rows, fun {key row} hfind => ?_⟩, rfl, fun key => ?_⟩
  · rw [hrows] at hfind
    obtain ⟨encoded, hencoded, rfl⟩ := Option.map_eq_some_iff.mp hfind
    obtain ⟨table', row, pk, ht', hdecoded, hrow, rfl⟩ := h.row_of ht.ok.separated hencoded
    rw [hdecoded, ht.unique ht']
    exact ⟨pk, hrow, rfl⟩
  · change _ = (rows.find? key).map _
    rw [hrows]
    cases hfind : m.find? (rowBytes name key) with
    | none => rfl
    | some encoded =>
      obtain ⟨table', row, pk, -, hdecoded, -, -⟩ := h.row_of ht.ok.separated hfind
      simp [hdecoded, Except.toOption]

/-- Every row store represents relations. -/
theorem RowStore.represents (h : RowStore codec m.find?) : ∃ d, Represents codec m d := by
  have hname : ∀ name, ∃ found : Option Relation,
      (m.find? (keyNamespaceTable :: name)).map codec.decodeTable =
      found.map (fun r => .ok r.table) ∧
      (∀ r, found = some r → r.table.name = name ∧ keySeparator ∉ name) ∧
      (keySeparator ∉ name → ∀ key, (m.find? (rowBytes name key)).map codec.decodeRow =
        (found.bind fun r => r.rows.find? key).map .ok) := by
    intro name
    cases hstored : m.find? (keyNamespaceTable :: name) with
    | none =>
      refine ⟨none, rfl, nofun, fun hname key => ?_⟩
      rw [Option.bind_none, Option.map_none, Option.map_eq_none_iff]
      by_contra hrow
      obtain ⟨encoded, hencoded⟩ := Option.ne_none_iff_exists'.mp hrow
      obtain ⟨table, row, pk, htable, -⟩ := h.row_of hname hencoded
      obtain ⟨encoded', hencoded', -⟩ := htable.stored
      cases hstored.symm.trans hencoded'
    | some encoded =>
      obtain ⟨table, hdecoded, hok⟩ := h.tables hstored
      obtain ⟨r, rfl, hrows⟩ := h.relation ⟨⟨encoded, hstored, hdecoded⟩, hok⟩
      refine ⟨some r, by simp [hdecoded], fun r' hr' => ?_, fun _ key => hrows key⟩
      cases hr'
      exact ⟨hok.named, hok.separated⟩
  choose found htables hnamed hrows using hname
  exact ⟨⟨found, fun hr => (hnamed _ _ hr).1⟩, htables, fun hname key => hrows _ hname key,
    fun hr => (hnamed _ _ hr).2⟩

end Existence

section Calls

theorem Represents.getTable (h : Represents codec m d) (name : Bytes) :
    tables codec (.getTable name) m = (d.getTable name, m) := by
  unfold Relations.getTable
  split_ifs with hname
  · subst hname
    rfl
  · have htables := h.catalog name
    cases hd : d.find name with
    | none =>
      rw [hd, Option.map_none, Option.map_eq_none_iff] at htables
      exact getTable_missing hname htables
    | some r =>
      rw [hd] at htables
      obtain ⟨encoded, hfind, hdecoded⟩ := Option.map_eq_some_iff.mp htables
      exact getTable_run hname hfind hdecoded

/-- The stored rows of a table are those of the relation, in the same order. -/
theorem Represents.stored_eq (h : Represents codec m d) (hr : d.find name = some r) :
    storedRows codec m r.table = r.rows.entries.map fun e => (rowBytes name e.1, e.2) := by
  have hname := d.named hr
  have hsorted : (r.rows.entries.map fun e => (rowBytes name e.1, e.2)).Pairwise
      (fun a b => a.1 < b.1) := by
    refine List.pairwise_map.mpr (r.rows.sorted.imp fun hab => ?_)
    exact rowBytes_lt name hab
  apply List.Pairwise.eq_of_mem_iff (storedRows_sorted codec m r.table) hsorted
  intro p
  rw [mem_storedRows, List.mem_map]
  have hstart : rowStart r.table <+: p.1 ↔ ∃ key, p.1 = rowBytes name key := by
    simp [List.prefix_iff_exists_append_eq, rowStart, rowBytes, hname, eq_comm]
  constructor
  · rintro ⟨encoded, hp, hfind, hrow⟩
    obtain ⟨key, hkey⟩ := hstart.mp hp
    have hstored := h.find_row hr key
    rw [← hkey, hfind] at hstored
    obtain ⟨row, hfound, hdecoded⟩ := Option.map_eq_some_iff.mp hstored.symm
    refine ⟨(key, row), OrderedMap.find?_eq_some.mp hfound, ?_⟩
    rw [← hdecoded] at hrow
    exact Prod.ext hkey.symm hrow.symm
  · rintro ⟨⟨key, row⟩, hmem, rfl⟩
    have hstored := h.find_row hr key
    rw [OrderedMap.find?_eq_some.mpr hmem] at hstored
    obtain ⟨encoded, hfind, hdecoded⟩ := Option.map_eq_some_iff.mp hstored
    refine ⟨encoded, hstart.mpr ⟨key, rfl⟩, hfind, ?_⟩
    rw [hdecoded]
    rfl

theorem Represents.hasTable (h : Represents codec m d) (hr : d.find name = some r)
    (hne : name ≠ []) : HasTable codec m r.table := by
  have hname := d.named hr
  refine ⟨hname ▸ hne, ?_, fun e he => ?_⟩
  · have htables := h.catalog name
    rw [hr] at htables
    rw [hname]
    exact Option.map_eq_some_iff.mp htables
  · obtain ⟨hstart, hfind⟩ := mem_under.mp he
    obtain ⟨key, hkey⟩ := hstart
    have hstored := h.find_row hr key
    have hbytes : rowBytes name key = e.1 := by
      rw [← hkey]
      simp [rowStart, rowBytes, hname]
    rw [hbytes, hfind] at hstored
    obtain ⟨row, hfound, hdecoded⟩ := Option.map_eq_some_iff.mp hstored.symm
    obtain ⟨pk, ⟨hvalid, -⟩, -⟩ := r.sound hfound
    exact ⟨row, hdecoded.symm, validateRow_length hvalid⟩

theorem Represents.scanTable (h : Represents codec m d) (hr : d.find name = some r)
    (hne : name ≠ []) : tables codec (.scanTable r.table) m = (d.scanTable r.table, m) := by
  rw [(h.hasTable hr hne).scanTable, h.stored_eq hr, Relations.scanTable, d.named hr, hr]
  simp

def Agreeing (codec : Codec) (a : Outcome Unit × Contents) (b : Outcome Unit × Relations)
    (T : Bytes → Option Table) : Prop :=
  a.1 = b.1 ∧ ∀ u, a.1 = .ok u → Represents codec a.2 b.2 ∧ schemas b.2 = T

theorem agreeing_error {e : Fault} {m' : Contents} {d' : Relations} {T : Bytes → Option Table} :
    Agreeing codec (.error e, m') (.error e, d') T :=
  ⟨rfl, fun _ hu => by cases hu⟩

theorem agreeing_ok {m' : Contents} {d' : Relations} (h : Represents codec m' d') :
    Agreeing codec (.ok (), m') (.ok (), d') (schemas d') :=
  ⟨rfl, fun _ _ => ⟨h, rfl⟩⟩

theorem accept_ok {table : Table} {row : Row} {pk : Value} (h : RowOf table pk row) :
    Relation.accept table row = .ok ⟨pk, h⟩ := by
  unfold Relation.accept
  split
  next pk' hvalid hpk =>
    cases hpk.symm.trans h.2
    rfl
  next hvalid hpk => cases hpk.symm.trans h.2
  next hvalid => cases hvalid.symm.trans h.1

theorem accept_invalid {table : Table} {row : Row} {e : Fault}
    (h : validateRow table row = .error e) :
    Relation.accept table row = .error e := by
  unfold Relation.accept
  split
  next pk hvalid hpk => cases hvalid.symm.trans h
  next hvalid hpk => cases hvalid.symm.trans h
  next hvalid =>
    cases hvalid.symm.trans h
    rfl

theorem accept_keyless {table : Table} {row : Row} {e : Fault}
    (hvalid : validateRow table row = .ok ())
    (h : table.primaryKeyValue row = .error e) : Relation.accept table row = .error e := by
  unfold Relation.accept
  split
  next pk _ hpk => cases hpk.symm.trans h
  next _ hpk =>
    cases hpk.symm.trans h
    rfl
  next hinvalid => cases hinvalid.symm.trans hvalid

theorem direct_get (m : Contents) (key : Bytes) :
    direct (.get key) m = (.ok (m.find? key), m) := rfl

theorem direct_delete (m : Contents) (key : Bytes) :
    direct (.delete key) m = (.ok (), m.erase key) := rfl

theorem find_remove (hr : d.find name = some r) (pk : Value) :
    (d.set (r.remove pk)).find name = some (r.remove pk) := by
  rw [find_set, if_pos]
  exact (d.named hr).symm

theorem Represents.isSome_row (h : Represents codec m d) (hr : d.find name = some r) (key : Bytes) :
    (m.find? (rowBytes name key)).isSome = (r.rows.find? key).isSome := by
  have hfind := congrArg Option.isSome (h.find_row hr key)
  simpa using hfind

theorem rowKey_bytes (hname : name ≠ []) (pk : Value) :
    rowKey name pk = .ok (rowBytes name (encodePrimaryKey pk)) := by
  simp [rowKey, rowPrefixKey, hname, rowBytes]

/-- The last step of a change: the value is encoded and set. -/
theorem store_agrees {key : Bytes} {d' : Relations} {format : String} {args : List Arg}
    {encoding : Except Error Bytes} {T : Bytes → Option Table}
    (hstored : ∀ encoded, encoding = .ok encoded → Represents codec (m.insert key encoded) d')
    (hschemas : schemas d' = T) :
    Agreeing codec
      (((coded format args encoding).bind fun encoded => mvcc (.set key encoded)).run direct m)
      (d.change ((storable format args encoding).bind fun _ => .ok d')) T := by
  cases encoding with
  | error e => exact agreeing_error
  | ok encoded =>
    rw [← hschemas]
    exact agreeing_ok (hstored encoded rfl)

/-- Both levels take the same rows, with the same primary key. -/
theorem accept_agrees {table : Table} {row : Row} {T : Bytes → Option Table} {f : Value → KvM Unit}
    {g : { pk : Value // RowOf table pk row } → Outcome Relations}
    (hok : ∀ pk (hrow : RowOf table pk row),
      Agreeing codec ((f pk).run direct m) (d.change (g ⟨pk, hrow⟩)) T) :
    Agreeing codec
      (((Prog.ofExcept (validateRow table row)).bind fun _ =>
        (Prog.ofExcept (table.primaryKeyValue row)).bind f).run direct m)
      (d.change ((Relation.accept table row).bind g)) T := by
  cases hvalid : validateRow table row with
  | error e =>
    rw [accept_invalid hvalid]
    exact agreeing_error
  | ok _ =>
    cases hpk : table.primaryKeyValue row with
    | error e =>
      rw [accept_keyless hvalid hpk]
      exact agreeing_error
    | ok pk =>
      rw [accept_ok ⟨hvalid, hpk⟩]
      exact hok pk ⟨hvalid, hpk⟩

/-- CreateRow refuses and stores the same rows on both sides. -/
theorem Represents.createRow (hc : Faithful codec) (h : Represents codec m d) (name : Bytes)
    (row : Row) : Agreeing codec (tables codec (.createRow name row) m)
      (Relations.call codec (.createRow name row) d) (schemas d) := by
  have hget : (KVTransaction.getTable codec name).run direct m =
      (d.getTable name, m) := h.getTable name
  change Agreeing codec ((KVTransaction.createRow codec name row).run direct m)
    (d.change (d.createRow codec name row)) _
  unfold KVTransaction.createRow Relations.createRow
  rw [Prog.bind_eq, Prog.run_bind, KvM.wrap, Prog.run_mapError, hget]
  unfold Relations.getTable
  split_ifs with hname
  · exact agreeing_error
  · cases hd : d.find name with
    | none => exact agreeing_error
    | some r =>
      refine accept_agrees fun pk hrow => ?_
      have hread := kv_wrap_ok (mvcc_run (direct_get m (rowBytes name (encodePrimaryKey pk))))
        "engine: checking primary key for table %q: %w" [.bytes name]
      rw [rowKey_bytes hname, Prog.ofExcept_ok, Prog.bind_eq, Prog.bind_done, Prog.bind_eq,
        Prog.run_bind_ok _ hread, h.isSome_row hd]
      split_ifs with hduplicate
      · exact agreeing_error
      · exact store_agrees (fun encoded hencoded => h.put hd hrow (hc.row hencoded))
          (schemas_set hd rfl)

/-- A changed primary key must be free. -/
theorem moveRow_run {table : Table} (hname : table.name ≠ []) {old pk : Value}
    (hmoved : (!old.equal pk) = true) (m : Contents) (key : Bytes) :
    (KVTransaction.moveRow table old pk key).run direct m =
      if (m.find? key).isSome then
        (fault "engine: duplicate primary key in table %q" [.bytes table.name], m)
      else (.ok (), m.erase (rowBytes table.name (encodePrimaryKey old))) := by
  have hread :=
    kv_wrap_ok (mvcc_run (direct_get m key)) "engine: checking updated primary key: %w" []
  rw [KVTransaction.moveRow, if_pos hmoved, rowKey_bytes hname, Prog.ofExcept_ok, Prog.bind_eq,
    Prog.bind_done, Prog.bind_eq, Prog.run_bind_ok _ hread]
  split_ifs with hduplicate
  · rfl
  · exact kv_wrap_ok (mvcc_run (direct_delete m _)) _ _

/-- The row moves when its primary key has changed. -/
theorem Represents.updateRow (hc : Faithful codec) (h : Represents codec m d)
    (hd : d.find name = some r) (hname : name ≠ []) (old : Value) (row : Row) :
    Agreeing codec (tables codec (.updateRow r.table old row) m)
      (Relations.call codec (.updateRow r.table old row) d) (schemas d) := by
  obtain rfl := d.named hd
  change Agreeing codec ((KVTransaction.updateRow codec r.table old row).run direct m)
    (d.change (d.updateRow codec r.table old row)) _
  unfold KVTransaction.updateRow Relations.updateRow
  rw [hd]
  refine accept_agrees fun pk hrow => ?_
  rw [rowKey_bytes hname, Prog.ofExcept_ok, Prog.bind_eq, Prog.bind_done, Prog.bind_eq]
  cases hmoved : !old.equal pk with
  | false =>
    have hstay : KVTransaction.moveRow r.table old pk
        (rowBytes r.table.name (encodePrimaryKey pk)) =
        pure () := by
      rw [KVTransaction.moveRow, hmoved]
      rfl
    rw [hstay]
    exact store_agrees (fun encoded hencoded => h.put hd hrow (hc.row hencoded))
      (schemas_set hd rfl)
  | true =>
    have hmove := moveRow_run hname hmoved m (rowBytes r.table.name (encodePrimaryKey pk))
    rw [h.isSome_row hd] at hmove
    simp only [Bool.true_and]
    split_ifs at hmove ⊢ with hduplicate
    · rw [Prog.run_bind_error _ hmove]
      exact agreeing_error
    · rw [Prog.run_bind_ok _ hmove]
      refine store_agrees (fun encoded hencoded => ?_) (schemas_set hd rfl)
      have hset : (d.set (r.remove old)).set ((r.remove old).put pk row hrow) =
          d.set ((r.remove old).put pk row hrow) := set_set rfl
      rw [← hset]
      exact (h.remove hd old).put (find_remove hd old) hrow (hc.row hencoded)

theorem Represents.deleteRow (h : Represents codec m d) (hd : d.find name = some r)
    (hname : name ≠ [])
    (pk : Value) : Agreeing codec (tables codec (.deleteRow r.table pk) m)
      (Relations.call codec (.deleteRow r.table pk) d) (schemas d) := by
  have hnamed := d.named hd
  have hkey : rowKey r.table.name pk = .ok (rowBytes name (encodePrimaryKey pk)) :=
    hnamed ▸ rowKey_bytes hname pk
  have hcall : Relations.call codec (.deleteRow r.table pk) d = (.ok (), d.set (r.remove pk)) := by
    simp only [Relations.call, Relations.deleteRow, hnamed, hd, Relations.change]
  have hschemas : schemas (d.set (r.remove pk)) = schemas d := schemas_set hd rfl
  rw [deleteRow_run hkey, hcall, ← hschemas]
  exact agreeing_ok (h.remove hd pk)

theorem Represents.createTable (hc : Faithful codec) (h : Represents codec m d) {table : Table}
    (hname : keySeparator ∉ table.name) : ∃ T, Agreeing codec (tables codec (.createTable table) m)
      (Relations.call codec (.createTable table) d) T := by
  have hget : (KVTransaction.getTable codec table.name).run direct m = (d.getTable table.name, m) :=
    h.getTable table.name
  change ∃ T, Agreeing codec ((KVTransaction.createTable codec table).run direct m)
    (d.change (d.createTable codec table)) T
  unfold KVTransaction.createTable Relations.createTable
  cases table.validate with
  | error e => exact ⟨schemas d, agreeing_error⟩
  | ok _ =>
    refine ⟨schemas (d.set (.new table)), ?_⟩
    change Agreeing codec (((KVTransaction.getTable codec table.name).bind _).run direct m)
      (d.change ((d.getTable table.name).bind _)) _
    rw [Prog.run_bind, hget]
    unfold Relations.getTable
    split_ifs with hempty
    · exact agreeing_error
    · rw [tableKey_eq hempty]
      cases hd : d.find table.name with
      | some r => exact agreeing_error
      | none =>
        exact store_agrees (fun encoded hencoded => h.add hd hname (hc.table hencoded)) rfl

end Calls

end SpaceDB.Proofs
