import SpaceDB.Proofs.RowStore

namespace SpaceDB.Proofs
open Lib Storage Sql Engine

variable {codec : Codec} {db : Db}

/-- Go's `==` on values that literals stand for. -/
theorem plain_equal {a b : Value} (ha : Plain a) (hb : Plain b) (h : a.equal b = true) : a = b := by
  cases a with
  | float f =>
    cases b with
    | float g =>
      have hbits : f.bits.val = g.bits.val := by
        obtain ⟨hf, -⟩ := ha
        obtain ⟨hg, -⟩ := hb
        have hrank : f.rank = g.rank := by
          simp only [Value.equal, Float64.eq, Bool.and_eq_true, decide_eq_true_eq] at h
          exact h.2
        simp only [Float64.rank, hf, hg, Bool.false_eq_true, if_false, Float64.magnitude] at hrank
        simp only [Float64.negative, decide_eq_false_iff_not] at hf hg
        omega
      obtain ⟨⟨i, hi⟩⟩ := f
      obtain ⟨⟨j, hj⟩⟩ := g
      cases hbits
      rfl
    | _ => cases h
  | null => cases b <;> first | rfl | cases h
  | boolean x => cases b <;> first | (rw [of_decide_eq_true h]) | cases h
  | integer x => cases b <;> first | (rw [of_decide_eq_true h]) | cases h
  | string x => cases b <;> first | (rw [of_decide_eq_true h]) | cases h

/-- What lies under the row prefix of a name is a row of the table of that
name. -/
theorem RowStore.under_prefix (h : RowStore codec db) {t start key value : Bytes}
    (ht : keySeparator ∉ t) (hstart : rowPrefixKey t = .ok start) (hp : start <+: key)
    (hv : db key = some value) :
    ∃ table row, StoredTable codec db t table ∧ StoredRow codec table key value row := by
  have hkey : ∃ rest, key = keyNamespaceRow :: rest := by
    obtain ⟨rest, rfl⟩ := hp
    rw [rowPrefixKey_ok hstart]
    exact ⟨_, rfl⟩
  obtain ⟨rest, rfl⟩ := hkey
  obtain ⟨name, table, row, htable, hrow⟩ := h.rows hv
  obtain ⟨pk, -, hkey⟩ := hrow.key
  rw [htable.ok.named] at hkey
  cases rowKey_separated ht htable.ok.separated hstart hkey hp
  exact ⟨table, row, htable, hrow⟩

def Visible (n : NilValue) (s : Sys) (u : Nat) (key value : Bytes) : Prop :=
  s.step n (.op (.get u key)) = some (s, some (.ok (.value (some value))))

/-- In the snapshot of every transaction, every key under the row prefix of a
table name belongs to a table that is visible too, holds a row of that table,
and is the key of that row; so no two rows have the same primary key. -/
theorem snapshot_rows {setting : Setting} {w : World} (hc : Faithful setting.codec)
    (h : setting.Reaches w) (hb : w.sys.begins < 2 ^ 64 - 1) {u : Nat} {x : Txn}
    (hl : w.sys.live u = some x) {t start : Bytes} (ht : keySeparator ∉ t)
    (hstart : rowPrefixKey t = .ok start) :
    ∃ es, w.sys.step setting.nil (.op (.scanPrefix u start)) =
        some (w.sys, some (.ok (.entries es))) ∧
      (∀ key value, start <+: key →
        (Visible setting.nil w.sys u key value ↔ ⟨key, some value⟩ ∈ es)) ∧
      (∀ e ∈ es, ∃ key encoded table row pk, tableKey t = .ok key ∧
        Visible setting.nil w.sys u key encoded ∧ setting.codec.decodeTable encoded = .ok table ∧
        setting.codec.decodeRow (e.value.getD []) = .ok row ∧ validateRow table row = .ok () ∧
        table.primaryKeyValue row = .ok pk ∧ rowKey t pk = .ok e.key) ∧
      ∀ e₁ ∈ es, ∀ e₂ ∈ es, ∀ table row₁ row₂ pk₁ pk₂,
        setting.codec.decodeRow (e₁.value.getD []) = .ok row₁ →
        setting.codec.decodeRow (e₂.value.getD []) = .ok row₂ →
        (∃ key encoded, tableKey t = .ok key ∧ Visible setting.nil w.sys u key encoded ∧
          setting.codec.decodeTable encoded = .ok table) →
        table.primaryKeyValue row₁ = .ok pk₁ → table.primaryKeyValue row₂ = .ok pk₂ →
        pk₁.equal pk₂ = true → e₁ = e₂ := by
  have hsound := reaches_rowStore hc h hb
  have hstore := (rowStore_merges setting.codec).view hsound.sys hsound.writes (live_iff.mp hl).1
  generalize hview : applyWrites (w.sys.database x.seen) x.writes = view at hstore
  have hvisible : ∀ key value, Visible setting.nil w.sys u key value ↔ view key = some value := by
    intro key value
    unfold Visible
    rw [hsound.sys.get_step hb hl key, ← applyWrites_eq, hview]
    simp
  obtain ⟨es, hscan, -, hmem⟩ := hsound.sys.scan_step (n := setting.nil) hl start
  have hentry : ∀ e, e ∈ es ↔ start <+: e.key ∧ e.value.isSome ∧ e.value = view e.key := by
    intro e
    rw [hmem, ← applyWrites_eq, hview]
  -- the row of an entry, with the table that is visible under the name
  have hrow : ∀ e ∈ es, ∃ table row, StoredTable setting.codec view t table ∧
      StoredRow setting.codec table e.key (e.value.getD []) row := by
    intro e he
    obtain ⟨hp, hsome, hvalue⟩ := (hentry e).mp he
    obtain ⟨value, hv⟩ := Option.isSome_iff_exists.mp hsome
    rw [hv] at hvalue ⊢
    exact hstore.under_prefix ht hstart hp hvalue.symm
  have htable : tableKey t = .ok (keyNamespaceTable :: t) := by
    unfold rowPrefixKey at hstart
    split_ifs at hstart with hempty
    · cases hstart
    · exact if_neg hempty
  refine ⟨es, hscan, ?_, ?_, ?_⟩
  · intro key value hp
    rw [hvisible, hentry]
    exact ⟨fun hv => ⟨hp, rfl, hv.symm⟩, fun hv => hv.2.2.symm⟩
  · intro e he
    obtain ⟨table, row, hknown, hstored⟩ := hrow e he
    obtain ⟨encoded, hencoded, hdecoded⟩ := hknown.stored
    obtain ⟨pk, hpk, hkey⟩ := hstored.key
    exact ⟨_, encoded, table, row, pk, htable, (hvisible _ _).mpr hencoded, hdecoded,
      hstored.decoded, hstored.valid, hpk, hknown.ok.named ▸ hkey⟩
  · rintro e₁ he₁ e₂ he₂ table row₁ row₂ pk₁ pk₂ hrow₁ hrow₂
      ⟨key, encoded, hkey, hencoded, hdecoded⟩
      hpk₁ hpk₂ hequal
    rw [tableKey_ok hkey, hvisible] at hencoded
    -- each of the two rows is stored under its own primary key
    have hown : ∀ {e row pk}, e ∈ es → setting.codec.decodeRow (e.value.getD []) = .ok row →
        table.primaryKeyValue row = .ok pk → Plain pk ∧ rowKey t pk = .ok e.key := by
      intro e row pk he hrow' hpk
      obtain ⟨table', row', ⟨⟨encoded', hencoded', hdecoded'⟩, hok⟩, hstored⟩ := hrow e he
      rw [hencoded] at hencoded'
      cases hencoded'
      rw [hdecoded] at hdecoded'
      cases hdecoded'
      rw [hstored.decoded] at hrow'
      cases hrow'
      obtain ⟨pk', hpk', hkey'⟩ := hstored.key
      rw [hpk] at hpk'
      cases hpk'
      have hin := primaryKeyValue_ordinary table row
      rw [hpk] at hin
      exact ⟨hstored.plain pk hin.2, hok.named ▸ hkey'⟩
    obtain ⟨hplain₁, hkey₁⟩ := hown he₁ hrow₁ hpk₁
    obtain ⟨hplain₂, hkey₂⟩ := hown he₂ hrow₂ hpk₂
    rw [plain_equal hplain₁ hplain₂ hequal, hkey₂] at hkey₁
    have hkeys := Except.ok.inj hkey₁
    have hvalues : e₁.value = e₂.value := by
      rw [((hentry e₁).mp he₁).2.2, ((hentry e₂).mp he₂).2.2, hkeys]
    cases e₁
    cases e₂
    cases hkeys
    cases hvalues
    rfl

def oneRow : List Event :=
  executed 0 "CREATE TABLE t (a INT PRIMARY KEY);" 4 ++ executed 1 "INSERT INTO t VALUES (1);" 6

def tableOf (name : String) : Table :=
  ⟨ascii name, [⟨ascii "a", .integer, false, none, true⟩]⟩

def rowOfInteger (i : Sql.Int64) : Row := [.integer i]

def rowPrefixOfT : Bytes := keyNamespaceRow :: ascii "t" ++ [keySeparator]

def integerEntry (i : Sql.Int64) : Entry :=
  ⟨rowPrefixOfT ++ encodePrimaryKey (.integer i), some (valueSerial.list.put (rowOfInteger i))⟩

def oneRowRecords : List (Bytes × Version × Bytes) :=
  [(keyNamespaceTable :: ascii "t", 1, tableSerial.put (tableOf "t")),
    ((integerEntry (.wrap 1)).key, 2, (integerEntry (.wrap 1)).value.getD [])]

/-- A SELECT that begins after the INSERT of a second row, while that of a third
one has written its row but has not committed. -/
def scanAcross : List Event :=
  oneRow ++ executed 2 "INSERT INTO t VALUES (2);" 6 ++ executed 3 "INSERT INTO t VALUES (3);" 4 ++
    executed 4 "SELECT * FROM t;" 1

/-- It sees two rows, of which the second. -/
theorem snapshot_rows_two : ∃ w x key encoded table row pk,
    serialSetting.run .init scanAcross = some w ∧ w.sys.live 4 = some x ∧
      w.sys.step .kept (.op (.scanPrefix 4 rowPrefixOfT)) =
        some (w.sys, some (.ok (.entries [integerEntry (.wrap 1), integerEntry (.wrap 2)]))) ∧
      tableKey (ascii "t") = .ok key ∧ Visible .kept w.sys 4 key encoded ∧
      serialCodec.decodeTable encoded = .ok table ∧
      serialCodec.decodeRow ((integerEntry (.wrap 2)).value.getD []) = .ok row ∧
      validateRow table row = .ok () ∧ table.primaryKeyValue row = .ok pk ∧
      rowKey (ascii "t") pk = .ok (integerEntry (.wrap 2)).key := by
  have hobserve : (serialSetting.run .init scanAcross).bind (fun w =>
      (w.sys.live 4).bind fun _ => (w.sys.step .kept (.op (.scanPrefix 4 rowPrefixOfT))).map
        fun q => (w.sys.begins, q.2)) =
      some (5, some (.ok (.entries [integerEntry (.wrap 1), integerEntry (.wrap 2)]))) := by
    decide +kernel
  obtain ⟨w, hrun, hw⟩ := Option.bind_eq_some_iff.mp hobserve
  obtain ⟨x, hl, hx⟩ := Option.bind_eq_some_iff.mp hw
  obtain ⟨q, hq, hres⟩ := Option.map_eq_some_iff.mp hx
  simp only [Prod.mk.injEq] at hres
  obtain ⟨hbegins, hentries⟩ := hres
  obtain ⟨es, hscan, -, hrows, -⟩ := snapshot_rows (t := ascii "t") serialCodec_faithful ⟨_, hrun⟩
    (by omega) hl (by decide) rfl
  have hes : es = [integerEntry (.wrap 1), integerEntry (.wrap 2)] := by
    rw [show w.sys.step .kept (.op (.scanPrefix 4 rowPrefixOfT)) = _ from hscan] at hq
    cases hq
    simpa using hentries
  subst hes
  obtain ⟨key, encoded, table, row, pk, hall⟩ := hrows (integerEntry (.wrap 2))
    (List.mem_cons_of_mem _ List.mem_cons_self)
  exact ⟨w, x, key, encoded, table, row, pk, hrun, hl, hscan, hall⟩

/-- A transaction with the last version sees a row, but not its table. -/
theorem row_without_table_at_last_version : ∃ w x s₁ s₂, serialSetting.Reaches w ∧
    w.sys.live (2 ^ 64 - 2) = some x ∧
      w.sys.step .kept (.op (.scanPrefix (2 ^ 64 - 2) rowPrefixOfT)) =
        some (s₁, some (.ok (.entries [integerEntry (.wrap 1)]))) ∧
      w.sys.step .kept (.op (.get (2 ^ 64 - 2) (keyNamespaceTable :: ascii "t"))) =
        some (s₂, some (.ok (.value none))) := by
  obtain ⟨before, hreaches, hbegins, hresumes, -⟩ := world_rounds oneRowRecords oneRow [0, 1]
    (a := 2) (b := 2) (2 ^ 64 - 4) (by decide) (by decide) (by decide) (by decide +kernel)
  have hobserve : (serialSetting.run (resumedWorld (committedData oneRowRecords) (2 ^ 64 - 2)
      (2 ^ 64 - 2)) (executed (2 ^ 64 - 2) "SELECT * FROM t;" 1)).bind (fun v =>
        (v.sys.live (2 ^ 64 - 2)).bind fun _ =>
          (v.sys.step .kept (.op (.scanPrefix (2 ^ 64 - 2) rowPrefixOfT))).bind fun q =>
            (v.sys.step .kept (.op (.get (2 ^ 64 - 2) (keyNamespaceTable :: ascii "t")))).map
              fun q' =>
              (q.2, q'.2)) =
      some (some (.ok (.entries [integerEntry (.wrap 1)])), some (.ok (.value none))) := by
        decide +kernel
  obtain ⟨v, hrun, hv⟩ := Option.bind_eq_some_iff.mp hobserve
  obtain ⟨w, hw, hres⟩ := hresumes.run (by simp [executed, calm]) hrun
  obtain ⟨x, hl, hv⟩ := Option.bind_eq_some_iff.mp hv
  obtain ⟨q, hq, hv⟩ := Option.bind_eq_some_iff.mp hv
  obtain ⟨q', hq', hv⟩ := Option.map_eq_some_iff.mp hv
  simp only [Prod.mk.injEq] at hv
  have hyoung : before.sys.begins ≤ 2 ^ 64 - 2 := by omega
  refine ⟨w, Txn.after before.sys x, _, _, reaches_run hreaches hw, ?_,
    hv.1 ▸ hres.step rfl hyoung hq, hv.2 ▸ hres.step rfl hyoung hq'⟩
  rw [hres.sys, after_live hyoung, hl]
  rfl

end SpaceDB.Proofs
