import SpaceDB.Lib.Refinement
import SpaceDB.Proofs.NamedTables
import SpaceDB.Proofs.StatementAtomicity

namespace SpaceDB.Proofs
open Lib Storage Sql Engine

variable {n : NilValue} {s s₀ : Sys} {handle : Option Nat} {phase : Phase} {inv : Db → Prop}
  {ok : Db → Bytes × Slice → Prop} {codec : Codec}

/-- A call on the MVCC begins a transaction only when it is Begin. -/
theorem serve_begins (n : NilValue) (c : MvccCall) (s : Sys) (handle : Option Nat) :
    (serve n c (s, handle)).2.1.begins = s.begins + if c = .begin then 1 else 0 := by
  unfold serve
  split
  next s' r h =>
    obtain ⟨o, ho, hstep⟩ := Option.bind_eq_some_iff.mp h
    obtain ⟨p, -, hp⟩ := Option.map_eq_some_iff.mp hstep
    cases hp
    cases c with
    | begin =>
      cases ho
      unfold Sys.record
      split <;> simp_all
    | _ =>
      obtain ⟨t, -, rfl⟩ := Option.map_eq_some_iff.mp ho
      unfold Sys.record
      split <;> simp_all [Sys.wrote, Sys.update]
  next h =>
    cases c with
    | begin => exact absurd rfl (h _ _)
    | _ => rfl

/-- An execution begins its transaction with the first call, and never again. -/
theorem phaseRule_begin {c : MvccCall} {P : MvccRet c → Phase → Prop}
    (hs : Stands ok s handle phase)
    (hrule : phaseRule inv ok c P phase) : c = .begin ↔ handle = none := by
  cases phase with
  | idle =>
    cases c with
    | begin => exact iff_of_true rfl hs
    | _ => exact hrule.elim
  | running base view =>
    obtain ⟨x, hown, -⟩ := hs
    obtain ⟨t, rfl, -⟩ := hown.entry
    cases c with
    | begin => exact hrule.elim
    | _ => exact iff_of_false (by simp) (by simp)
  | committed => cases c <;> exact hrule.elim
  | rolledBack => cases c <;> exact hrule.elim

/-- What is known while an execution runs alone from `s₀` on: it has not begun
yet, or all that is new belongs to its own transaction. -/
structure Alone (ok : Db → Bytes × Slice → Prop) (s₀ s : Sys) (handle : Option Nat)
    (phase : Phase) :
    Prop where
  sys : Inv s
  stands : Stands ok s handle phase
  handle : handle = none ∧ s = s₀ ∨ handle = some s₀.begins ∧ s.begins = s₀.begins + 1
  older : ∀ u < s₀.begins, s.txns u = s₀.txns u
  commits : s₀.commits <+: s.commits

/-- One call of the statement that runs alone. -/
theorem Alone.step (hinv : inv (s₀.database s₀.commits)) (hb : s₀.begins + 1 < 2 ^ 64 - 1)
    (h : Alone ok s₀ s handle phase) {c : MvccCall} {P : MvccRet c → Phase → Prop}
    (hrule : phaseRule inv ok c P phase) :
    ∃ phase', Alone ok s₀ (serve n c (s, handle)).2.1 (serve n c (s, handle)).2.2 phase' ∧
      P (serve n c (s, handle)).1 phase' := by
  have hbegin := phaseRule_begin h.stands hrule
  have hstart : handle = none → s = s₀ := by
    intro hnone
    rcases h.handle with ⟨-, heq⟩ | ⟨hsome, -⟩
    · exact heq
    · cases hnone.symm.trans hsome
  have hstarted : handle ≠ none → handle = some s₀.begins ∧ s.begins = s₀.begins + 1 := by
    intro hsome
    rcases h.handle with ⟨hnone, -⟩ | hown
    · exact absurd hnone hsome
    · exact hown
  have hlt : s.begins < 2 ^ 64 - 1 := by
    by_cases hnone : handle = none
    · rw [hstart hnone]
      omega
    · have := (hstarted hnone).2
      omega
  have hserved := serve_sound (n := n) h.sys hlt (fun hnone => hstart hnone ▸ hinv) h.stands hrule
  -- after the call the transaction is the one that `s₀` has begun next
  have hown : (serve n c (s, handle)).2.2 = some s₀.begins ∧
      (serve n c (s, handle)).2.1.begins = s₀.begins + 1 := by
    have hcount := serve_begins n c s handle
    rcases hserved.handle with ⟨t, ht, ht'⟩ | ⟨hnone, ht'⟩
    · have hsome : handle ≠ none := by simp [ht]
      obtain ⟨hhandle, hbegins⟩ := hstarted hsome
      rw [if_neg (mt hbegin.mp hsome)] at hcount
      exact ⟨ht'.trans (ht.symm.trans hhandle), hcount.trans hbegins⟩
    · rw [if_pos (hbegin.mpr hnone)] at hcount
      rw [hstart hnone] at ht' hcount
      rw [hstart hnone]
      exact ⟨ht', hcount⟩
  obtain ⟨o, r, hstep⟩ := hserved.step
  obtain ⟨phase', hstands', hP⟩ := hserved.phase
  obtain ⟨a, -, heffect⟩ := op_effect h.sys.encoded (h.sys.counts hstep (by omega)) hstep
  refine ⟨phase', ⟨heffect.inv h.sys (by omega), hstands', .inr hown, ?_, ?_⟩, hP⟩
  · intro u hu
    rw [hserved.others u, h.older u hu]
    rw [hown.1]
    simpa using ne_of_gt hu
  · exact h.commits.trans (step_commits hstep)

/-- An execution that has run alone has changed nothing under a key that it may
not write to. -/
theorem Alone.database (h₀ : Inv s₀) (h : Alone ok s₀ s handle phase) {k : Bytes}
    (hk : ∀ base v, ¬ ok base (k, v)) : s.database s.commits k = s₀.database s₀.commits k := by
  obtain ⟨new, hnew⟩ := h.commits
  have hold : s.database s₀.commits = s₀.database s₀.commits := by
    apply database_congr
    intro u hu
    obtain ⟨x, hx, -⟩ := h₀.committed.mp hu
    exact h.older u (h₀.bound hx)
  rw [← hnew, database_skip, hold]
  intro v hv hkey
  have hin : v ∈ s.commits := hnew ▸ List.mem_append_right _ hv
  obtain ⟨x, hx, hcommitted⟩ := h.sys.committed.mp hin
  have hout : v ∉ s₀.commits := by
    have hnodup : s.commits.Nodup := h.sys.nodup
    rw [← hnew] at hnodup
    exact fun hold => List.disjoint_of_nodup_append hnodup hold hv
  have hlast : ¬ v < s₀.begins := by
    intro hlt
    apply hout
    exact h₀.committed.mpr ⟨x, (h.older v hlt).symm.trans hx, hcommitted⟩
  have hbound : v < s.begins := h.sys.bound hx
  rcases h.handle with ⟨-, rfl⟩ | ⟨rfl, hbegins⟩
  · exact hlast hbound
  · have hv : v = s₀.begins := by omega
    subst hv
    obtain ⟨⟨key, value⟩, hmem, rfl⟩ := List.mem_map.mp hkey
    rw [writesOf_eq hx] at hmem
    exact hk _ _ (h.stands.writes hx _ hmem)

structure Reader (s : Sys) (handle : Option Nat) (db : Db) : Prop where
  sys : Inv s
  begins : s.begins < 2 ^ 64 - 1
  txn : ∃ t x, handle = some t ∧ s.live t = some x ∧ applyWrites (s.database x.seen) x.writes = db

section Readers
variable {db : Db}

theorem Reader.get (h : Reader s handle db) (k : Bytes) :
    serve n (.get k) (s, handle) = (.ok (db k), (s, handle)) := by
  obtain ⟨t, x, rfl, hl, rfl⟩ := h.txn
  rw [serve_eq rfl (h.sys.get_step h.begins hl k), applyWrites_eq]
  rfl

/-- A reader scans the database it began with. -/
theorem Reader.scanPrefix (h : Reader s handle db) (p : Bytes) :
    ∃ es, serve n (.scanPrefix p) (s, handle) = (.ok es, (s, handle)) ∧
      es.Pairwise (fun a b => a.key < b.key) ∧
      ∀ e, e ∈ es ↔ p <+: e.key ∧ e.value.isSome ∧ e.value = db e.key := by
  obtain ⟨t, x, rfl, hl, rfl⟩ := h.txn
  obtain ⟨es, hstep, hsort, hmem⟩ := h.sys.scan_step (n := n) hl p
  refine ⟨es, ?_, hsort, ?_⟩
  · rw [serve_eq rfl hstep]
    rfl
  · intro e
    rw [hmem, applyWrites_eq]

/-- A transaction that begins now reads the committed database. -/
theorem Inv.reader (h : Inv s) (hb : s.begins + 1 < 2 ^ 64 - 1) :
    ∃ s', serve n .begin (s, none) = (.ok (), (s', some s.begins)) ∧
      Reader s' (some s.begins) (s.database s.commits) := by
  have hserved : Served n (fun _ _ => True) s none .begin (fun r phase =>
      r = .ok () ∧ phase = .running (s.database s.commits) (s.database s.commits)) :=
    @served_begin n s (· = s.database s.commits) _ h (by omega) rfl _
      (fun db hdb => ⟨rfl, by rw [hdb]⟩)
  obtain ⟨o, r, hstep⟩ := hserved.step
  obtain ⟨phase, hstands, hanswer, rfl⟩ := hserved.phase
  obtain ⟨x, hown, hbase, hview⟩ := hstands
  have hhandle : (serve n .begin (s, none)).2.2 = some s.begins := by
    rcases hserved.handle with ⟨t, hnone, -⟩ | ⟨-, hsome⟩
    · cases hnone
    · exact hsome
  have hcount := serve_begins n .begin s none
  rw [if_pos rfl] at hcount
  obtain ⟨a, -, heffect⟩ := op_effect h.encoded (h.counts hstep (by omega)) hstep
  refine ⟨(serve n .begin (s, none)).2.1, Prod.ext hanswer (Prod.ext rfl hhandle),
    heffect.inv h (by omega), by omega, s.begins, x, rfl, ?_, ?_⟩
  · rw [hhandle] at hown
    exact live_iff.mpr ⟨hown.txn, hown.status⟩
  · rw [← hbase]
    exact hview.symm

end Readers

def TableKeys (b k : Bytes) : Prop :=
  k = keyNamespaceTable :: b ∨ keyNamespaceRow :: b ++ [keySeparator] <+: k

def TableCalls (b : Bytes) (c : MvccCall) : Prop :=
  c = .get (keyNamespaceTable :: b) ∨ c = .scanPrefix (keyNamespaceRow :: b ++ [keySeparator])

/-- A statement on one table writes to no key of another one. -/
theorem Touches.not_other {a b k : Bytes} {v : Slice} (h : Touches codec a (k, v))
    (ha : keySeparator ∉ a) (hb : keySeparator ∉ b) (hab : b ≠ a) : ¬ TableKeys b k := by
  cases h with
  | create named =>
    rintro (heq | hp)
    · exact hab (List.cons.inj heq).2.symm
    · have := (List.cons_prefix_cons.mp hp).1
      simp [keyNamespaceRow, keyNamespaceTable] at this
  | row key_eq =>
    rintro (heq | hp)
    · exact table_ne_row key_eq heq
    · rw [rowKey_ok key_eq] at hp
      exact hab (row_bytes_separated hb ha hp)

theorem mvcc_guarded {P : MvccCall → Prop} {c : MvccCall} (hc : P c) :
    (mvcc c).Guarded P (fun _ _ => False) :=
  ⟨hc, fun _ h => h.elim, fun r => Prog.guarded_check Fault.error r⟩

theorem getTable_guarded (codec : Codec) (b : Bytes) :
    (KVTransaction.getTable codec b).Guarded (TableCalls b) (fun _ _ => False) := by
  unfold KVTransaction.getTable
  cases hkey : tableKey b with
  | error e => exact trivial
  | ok key =>
    have hcall : TableCalls b (.get key) := .inl (by rw [tableKey_ok hkey])
    rw [Prog.ofExcept_ok, Prog.bind_eq, Prog.bind_done]
    refine Prog.Guarded.bind (mvcc_guarded hcall) ?_
    intro v
    cases v with
    | none => exact trivial
    | some encoded => exact Prog.Guarded.bind (Prog.guarded_check _ _) (fun _ => trivial)

theorem scanTable_guarded (codec : Codec) (table : Table) :
    (KVTransaction.scanTable codec table).Guarded (TableCalls table.name) (fun _ _ => False) := by
  unfold KVTransaction.scanTable
  cases hkey : rowPrefixKey table.name with
  | error e => exact trivial
  | ok start =>
    have hcall : TableCalls table.name (.scanPrefix start) := .inr (by rw [rowPrefixKey_ok hkey])
    rw [Prog.ofExcept_ok, Prog.bind_eq, Prog.bind_done]
    exact Prog.Guarded.bind (mvcc_guarded hcall).mapError (fun es => Prog.guarded_ofExcept _)

/-- Readers of two databases that have the same table get the same answers. -/
theorem Reader.alike {b : Bytes} {db db' : Db} (hsame : ∀ k, TableKeys b k → db k = db' k)
    {s' : Sys} {handle' : Option Nat} (h : Reader s handle db) (h' : Reader s' handle' db')
    {c : MvccCall} (hc : TableCalls b c) :
    (serve n c (s, handle)).1 = (serve n c (s', handle')).1 ∧
      (serve n c (s, handle)).2 = (s, handle) ∧ (serve n c (s', handle')).2 = (s', handle') := by
  rcases hc with rfl | rfl
  · rw [h.get, h'.get, hsame _ (.inl rfl)]
    exact ⟨rfl, rfl, rfl⟩
  · obtain ⟨es, heq, hsort, hmem⟩ := h.scanPrefix (n := n) (keyNamespaceRow :: b ++ [keySeparator])
    obtain ⟨es', heq', hsort', hmem'⟩ :=
      h'.scanPrefix (n := n) (keyNamespaceRow :: b ++ [keySeparator])
    have hes : es = es' := by
      apply List.Pairwise.eq_of_mem_iff hsort hsort'
      intro e
      rw [hmem, hmem']
      refine and_congr_right (fun hp => ?_)
      rw [hsame _ (.inr hp)]
    rw [heq, heq', hes]
    exact ⟨rfl, rfl, rfl⟩

section Tables
variable {setting : Setting} {w : World}

theorem look_eq (setting : Setting) (h : Inv s) (hb : s.begins + 1 < 2 ^ 64 - 1) (c : TxnCall) :
    ∃ s' handle, Reader s' handle (s.database s.commits) ∧
      setting.look s c =
      ((KVTransaction.call setting.codec c).run (serve setting.nil) (s', handle)).1 := by
  obtain ⟨s', hserve, hreader⟩ := h.reader (n := setting.nil) hb
  refine ⟨s', _, hreader, ?_⟩
  unfold Setting.look mvcc
  rw [Prog.bind_eq, Prog.perform, Prog.bind_call, Prog.bind_call, Prog.run_call, hserve]
  rfl

/-- A table looks the same in two states that have committed the same under its
keys. -/
theorem look_alike {s' : Sys} (h : Inv s) (h' : Inv s') (hb : s.begins + 1 < 2 ^ 64 - 1)
    (hb' : s'.begins + 1 < 2 ^ 64 - 1) {b : Bytes}
    (hsame : ∀ k, TableKeys b k → s'.database s'.commits k = s.database s.commits k) {c : TxnCall}
    (hc : (KVTransaction.call setting.codec c).Guarded (TableCalls b) (fun _ _ => False)) :
    setting.look s' c = setting.look s c := by
  obtain ⟨m, handle, hreader, heq⟩ := look_eq setting h hb c
  obtain ⟨m', handle', hreader', heq'⟩ := look_eq setting h' hb' c
  rw [heq, heq']
  refine (hc.run_refines (h := serve setting.nil) (k := serve setting.nil)
    (R := fun w' w => w' = (m', handle') ∧ w = (m, handle)) ?_ ⟨rfl, rfl⟩).1
  rintro call _ _ hcall ⟨rfl, rfl⟩
  obtain ⟨hanswer, hstate', hstate⟩ := hreader'.alike (n := setting.nil) hsame hreader hcall
  exact ⟨hanswer, hstate', hstate⟩

def changedTable : Statement → Option Bytes
  | .createTable s => some s.name
  | .insert s => some s.tableName
  | .update s => some s.tableName
  | .delete s => some s.tableName
  | .select _ => none

theorem target_build {statement : Statement} {node : Node} {a : Bytes}
    (ha : changedTable statement = some a) (h : build statement = .ok node) :
    target node = some a := by
  cases statement with
  | createTable s =>
    obtain ⟨table, htable, h⟩ := outcome_bind_ok h
    obtain ⟨columns, -, htable⟩ := outcome_bind_ok (outcome_wrap_ok htable)
    cases h
    cases htable
    exact ha
  | select s => cases ha
  | _ =>
    cases h
    exact ha

theorem PlannedStatement.target_separated {node : Node} {a : Bytes} (h : PlannedStatement node)
    (ha : target node = some a) : keySeparator ∉ a := by
  cases node with
  | createTable | insert | update | delete =>
    cases ha
    exact h.1.separated
  | _ => cases ha

/-- A statement that runs alone leaves every table but its own as it was. -/
theorem other_tables_unchanged (hc : KeepsNames setting.codec) (h : setting.Reaches w)
    (hb : w.sys.begins < 2 ^ 64 - 3) (i : Nat) {sql a b : Bytes} {statement : Statement}
    (hparse : parse sql = .ok statement) (ha : changedTable statement = some a) (hab : b ≠ a)
    (hsep : keySeparator ∉ b) :
    setting.look (setting.execute i sql w.sys).2 (.getTable b) = setting.look w.sys (.getTable b) ∧
      ∀ table : Table, table.name = b →
        setting.look (setting.execute i sql w.sys).2 (.scanTable table) =
          setting.look w.sys (.scanTable table) := by
  have hsound := reaches_named hc h (by omega)
  have hstore : NamedTables setting.codec (w.sys.database w.sys.commits) :=
    (namedTables_merges setting.codec).commits hsound.sys hsound.writes
  have hwrites : (Session.execute setting.codec (setting.walks.order i) sql).wp
      (phaseRule (NamedTables setting.codec)
        (fun _ v => keySeparator ∉ a ∧ Touches setting.codec a v)) Ended .idle := by
    apply session_touches (fun name => name = a ∧ keySeparator ∉ a) hc (setting.walks.perm i)
    · intro node hplan name hname
      have hplanned := planned_text hplan
      obtain ⟨statement', hparse', hbuild⟩ := outcome_bind_ok hplan
      have heq := outcome_wrap_ok hparse'
      rw [hparse] at heq
      cases heq
      have htarget := target_build ha (outcome_wrap_ok hbuild)
      rw [htarget] at hname
      cases hname
      exact ⟨rfl, hplanned.target_separated htarget⟩
    · rintro base name v ⟨rfl, hsep⟩ hw
      exact ⟨hsep, hw⟩
  have hstart : Alone (fun _ v => keySeparator ∉ a ∧ Touches setting.codec a v) w.sys w.sys
      none .idle :=
    ⟨hsound.sys, rfl, .inl ⟨rfl, rfl⟩, fun _ _ => rfl, List.prefix_refl _⟩
  obtain ⟨handle, phase, halone⟩ : ∃ handle phase, Alone _ w.sys (setting.execute i sql w.sys).2
      handle phase := by
    obtain ⟨phase, halone, -⟩ := Prog.wp_run (h := serve setting.nil) (w := (w.sys, none))
      (fun m phase => Alone _ w.sys m.1 m.2 phase)
      (fun c P m phase hm hrule => hm.step hstore (by omega) hrule) hstart hwrites
    exact ⟨_, phase, halone⟩
  have hbegins : (setting.execute i sql w.sys).2.begins ≤ w.sys.begins + 1 := by
    rcases halone.handle with ⟨-, heq⟩ | ⟨-, heq⟩
    · rw [heq]
      exact Nat.le_succ _
    · exact le_of_eq heq
  have hsame : ∀ k, TableKeys b k →
      (setting.execute i sql w.sys).2.database (setting.execute i sql w.sys).2.commits k =
        w.sys.database w.sys.commits k := by
    intro k hk
    apply halone.database hsound.sys
    exact fun base v hw => hw.2.not_other hw.1 hsep hab hk
  constructor
  · exact look_alike hsound.sys halone.sys (by omega) (by omega) hsame (getTable_guarded _ b)
  · rintro table rfl
    exact look_alike hsound.sys halone.sys (by omega) (by omega) hsame (scanTable_guarded _ table)

end Tables

/-- Two tables of which one has a name that begins with the name of the other. -/
def twoTables : List Event :=
  executed 0 "CREATE TABLE t (a INT PRIMARY KEY);" 4 ++
    executed 1 "CREATE TABLE tt (a INT PRIMARY KEY);" 4

def twoTablesRecords : List (Bytes × Version × Bytes) :=
  ["t", "tt"].zipIdx.map fun (name, i) =>
    (keyNamespaceTable :: ascii name, Fin.ofNat (2 ^ 64) (i + 1), tableSerial.put (tableOf name))

theorem other_tables_unchanged_similar_name : ∃ w, serialSetting.Reaches w ∧
    (serialSetting.execute 3 (ascii "INSERT INTO t VALUES (1);") w.sys).1 = .ok (.insert 1) ∧
    serialSetting.look (serialSetting.execute 3 (ascii "INSERT INTO t VALUES (1);") w.sys).2
      (.getTable (ascii "tt")) = .ok (some (tableOf "tt")) ∧
    serialSetting.look (serialSetting.execute 3 (ascii "INSERT INTO t VALUES (1);") w.sys).2
      (.scanTable (tableOf "tt")) = .ok [rowOfInteger ⟨7, by decide⟩] := by
  have hobserve : (serialSetting.run .init (twoTables ++
      executed 2 "INSERT INTO tt VALUES (7);" 6)).bind (fun w => if w.sys.begins = 3 then
        some ((serialSetting.execute 3 (ascii "INSERT INTO t VALUES (1);") w.sys).1,
          serialSetting.look w.sys (.getTable (ascii "tt")),
          serialSetting.look w.sys (.scanTable (tableOf "tt"))) else none) =
      some (.ok (.insert 1), .ok (some (tableOf "tt")), .ok [rowOfInteger ⟨7, by decide⟩]) := by
    decide +kernel
  obtain ⟨w, hrun, hw⟩ := Option.bind_eq_some_iff.mp hobserve
  split_ifs at hw with hbegins
  simp only [Option.some.injEq, Prod.mk.injEq] at hw
  obtain ⟨hdone, hget, hscan⟩ := hw
  have hparse : parse (ascii "INSERT INTO t VALUES (1);") =
      .ok (.insert ⟨ascii "t", [], [[⟨.integerLiteral, .int64 ⟨1, by decide⟩⟩]]⟩) := by
      decide +kernel
  obtain ⟨hsame, hrows⟩ :=
    other_tables_unchanged serialCodec_faithful.keepsNames ⟨_, hrun⟩ (by omega)
    3 hparse rfl (b := ascii "tt") (by decide) (by decide)
  exact ⟨w, ⟨_, hrun⟩, hdone, hsame.trans hget, (hrows _ rfl).trans hscan⟩

/-- A session is the same after the handles of `old`. -/
theorem session_after {α : Type} {old : Sys} (p : KvM α) (hb : old.begins ≤ s.begins)
    (hhandle : ∀ t, handle = some t → old.begins ≤ t) :
    p.run (serve n) (Sys.after old s, handle) = ((p.run (serve n) (s, handle)).1,
      (Sys.after old (p.run (serve n) (s, handle)).2.1, (p.run (serve n) (s, handle)).2.2)) := by
  induction p generalizing s handle with
  | done a => rfl
  | fail e => rfl
  | call c next ih =>
    rw [Prog.run_call, Prog.run_call, serve_after n c hb hhandle]
    apply ih
    · exact le_trans hb (serve_begins_le n c s handle)
    · intro t ht
      rcases serve_handle ht with ht | rfl
      · exact hhandle t ht
      · exact hb

theorem look_after {old : Sys} (setting : Setting) (hb : old.begins ≤ s.begins) (c : TxnCall) :
    setting.look (Sys.after old s) c = setting.look s c := by
  unfold Setting.look
  rw [session_after _ hb (by simp)]

theorem execute_after {old : Sys} (setting : Setting) (hb : old.begins ≤ s.begins) (i : Nat)
    (sql : Bytes) :
    (setting.execute i sql (Sys.after old s)).2 = Sys.after old (setting.execute i sql s).2 := by
  unfold Setting.execute
  rw [session_after _ hb (by simp)]

theorem execute_begins_le (setting : Setting) (s : Sys) (i : Nat) (sql : Bytes) :
    s.begins ≤ (setting.execute i sql s).2.begins := by
  unfold Setting.execute
  generalize none = handle
  generalize Session.execute setting.codec (setting.walks.order i) sql = p
  induction p generalizing s handle with
  | done a => exact le_refl _
  | fail e => exact le_refl _
  | call c next ih => exact le_trans (serve_begins_le _ c s handle) (ih _ _ _)

/-- A statement on one table takes the last version but one, and the next
transaction does not find the other table. -/
theorem other_table_lost_at_last_version : ∃ w, serialSetting.Reaches w ∧
    w.sys.begins = 2 ^ 64 - 3 ∧
    serialSetting.look w.sys (.getTable (ascii "tt")) = .ok (some (tableOf "tt")) ∧
    serialSetting.look (serialSetting.execute 3 (ascii "INSERT INTO t VALUES (1);") w.sys).2
      (.getTable (ascii "tt")) = .ok none := by
  obtain ⟨w, hreaches, hbegins, hresumes, -⟩ := world_rounds twoTablesRecords twoTables [0, 1]
    (a := 2) (b := 2) (2 ^ 64 - 5) (by decide) (by decide) (by decide) (by decide +kernel)
  have hsys := hresumes.sys
  have hold := hresumes.begins
  refine ⟨w, hreaches, hbegins, ?_, ?_⟩
  · rw [hsys, look_after _ hold]
    change (_ : Outcome (Option Table)) = _
    decide +kernel
  · rw [hsys, execute_after _ hold, look_after _ (le_trans hold (execute_begins_le _ _ _ _))]
    change (_ : Outcome (Option Table)) = _
    decide +kernel

end SpaceDB.Proofs
