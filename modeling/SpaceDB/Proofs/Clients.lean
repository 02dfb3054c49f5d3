import SpaceDB.Proofs.KeyedStore

namespace SpaceDB.Proofs
open Lib Storage Sql Engine

variable {codec : Codec} {base db start : Db} {table : Table} {known : List Table}

def InOrder (codec : Codec) : Phase → Prop
  | .running base view => Orderly codec base view
  | _ => True

/-- The rule of the phases for transactions that always see a store in order. -/
abbrev orderlyRule (codec : Codec) : Rule MvccCall MvccRet Phase :=
  (phaseRule (KeyedStore codec) (fun _ _ => True)).keeping (InOrder codec)

theorem orderlyRule_monotone (codec : Codec) : (orderlyRule codec).Monotone :=
  phaseRule_monotone.keeping _

theorem orderlyRule_phased (codec : Codec) : Phased (orderlyRule codec) (KeyedStore codec) :=
  ⟨orderlyRule_monotone codec, fun h db hdb => ⟨hdb.orderly, h db hdb⟩, fun h => ⟨trivial, h⟩,
    fun h => ⟨trivial, h⟩⟩

def Reading (codec : Codec) (base start : Db) (phase : Phase) : Prop :=
  ∃ view, phase = .running base view ∧ Orderly codec base view ∧
    ∀ name, view (keyNamespaceTable :: name) = start (keyNamespaceTable :: name)

def Ahead (codec : Codec) (base start : Db) (phase : Phase) : Prop :=
  ∃ view, phase = .running base view ∧ Orderly codec base view ∧ TablesKept start view

section Calls

theorem Orderly.reading (h : Orderly codec base start) :
    Reading codec base start (.running base start) :=
  ⟨start, rfl, h, fun _ => rfl⟩

theorem Reading.ahead {phase : Phase} (h : Reading codec base start phase) :
    Ahead codec base start phase := by
  obtain ⟨view, rfl, horder, htables⟩ := h
  exact ⟨view, rfl, horder, fun hk => (htables _).trans hk⟩

/-- A write to a row, when it leaves the store in order. -/
theorem reading_write {c : MvccCall} {k : Bytes} {v : Slice}
    (hv : ∀ {view}, KeyedStore codec view →
      (∀ name, view (keyNamespaceTable :: name) = start (keyNamespaceTable :: name)) →
      KeyedStore codec (Function.update view k v) ∧
        ∀ name, Function.update view k v (keyNamespaceTable :: name) =
        view (keyNamespaceTable :: name))
    (hc : ∀ {P : MvccRet c → Phase → Prop} {view : Db},
      (∀ r, P r (.running base (Function.update view k v)) ∧ P r (.running base view)) →
      phaseRule (KeyedStore codec) (fun _ _ => True) c P (.running base view)) :
    Behaves (orderlyRule codec) (Reading codec base start) (fun _ => True) (mvcc c) := by
  rintro _ ⟨view, rfl, horder, htables⟩
  apply hc
  intro r
  have hold : Reading codec base start (.running base view) := ⟨view, rfl, horder, htables⟩
  obtain ⟨hkeyed, hsame⟩ := hv horder.1 htables
  have horder' : Orderly codec base (Function.update view k v) :=
    ⟨hkeyed, fun hk => (hsame _).trans (horder.2 hk)⟩
  have hnew : Reading codec base start (.running base (Function.update view k v)) :=
    ⟨_, rfl, horder', fun name => (hsame name).trans (htables name)⟩
  cases r with
  | ok a => exact ⟨⟨horder', hnew, trivial⟩, horder, hold, trivial⟩
  | error e => exact ⟨⟨horder', hnew, trivial⟩, horder, hold, trivial⟩

theorem reading_delete {name key : Bytes} {pk : Value} (hkey : rowKey name pk = .ok key) :
    Behaves (orderlyRule codec) (Reading codec base start) (fun _ => True) (mvcc (.delete key)) :=
  reading_write (fun h _ => h.remove hkey) (fun h => ⟨trivial, (h _).1, (h _).2⟩)

/-- The MVCC as a transaction uses it that has the tables of `start`. -/
theorem reading_stores (hc : Faithful codec) (base start : Db) :
    Stores codec (orderlyRule codec) (Reading codec base start) (fun _ => True)
      (fun name table => table.name = name ∧ codec.Holds start table) (fun _ => True) where
  monotone := orderlyRule_monotone codec
  plain := fun _ _ => trivial
  defaults := fun _ _ _ _ _ => trivial
  get := by
    rintro key _ ⟨view, rfl, horder, htables⟩
    refine ⟨horder, ⟨view, rfl, horder, htables⟩, ?_⟩
    intro name encoded table hkey hvalue hdecoded
    rw [tableKey_ok hkey] at hvalue
    obtain ⟨table', hdecoded', hname, -⟩ := horder.1.tables hvalue
    rw [hdecoded] at hdecoded'
    cases hdecoded'
    exact ⟨hname, encoded, by rw [hname, ← htables, hvalue], hdecoded⟩
  scanPrefix := by
    rintro name first hfirst _ ⟨view, rfl, horder, htables⟩ es hes
    exact ⟨horder, ⟨view, rfl, horder, htables⟩, fun _ _ _ _ _ _ => trivial⟩
  set := by
    rintro name name' table row pk key encoded - ⟨rfl, hknown⟩ hname' hvalid - hpk hkey hencoded
    have hname : name' = table.name := by
      rcases hname' with rfl | rfl
      · rfl
      · rfl
    have hkeyOf : keyOf table row = .ok key := by
      unfold keyOf
      rw [hpk]
      exact hname ▸ hkey
    refine reading_write ?_ (fun h => ⟨trivial, (h _).1, (h _).2⟩)
    intro view hkeyed htables
    exact hkeyed.put (holds_kept hknown (fun hk => (htables _).trans hk))
      (hc.row hencoded) hvalid hkeyOf
  delete := fun _ _ hkey => reading_delete hkey

/-- CreateTable leaves the store in order, and the new table is in it. -/
theorem createTable_orderly (hc : Faithful codec) (hname : keySeparator ∉ table.name)
    (hstart : Orderly codec base start) :
    (KVTransaction.createTable codec table).wp (orderlyRule codec) (fun r phase =>
      Ahead codec base start phase ∧ Ordinary (fun _ => ∃ view, phase = .running base view ∧
        codec.Holds view table) r) (.running base start) := by
  by_cases hempty : table.name = []
  · -- Validate refuses the empty name.
    unfold KVTransaction.createTable Table.validate
    rw [if_pos hempty]
    exact ⟨hstart.reading.ahead, trivial⟩
  refine kv_createTable codec (orderlyRule_monotone codec)
    (I := fun phase => phase = .running base start)
    (Q := fun v => v = start (keyNamespaceTable :: table.name)) ?_ (tableKey_eq hempty) ?_ ?_ rfl
  · rintro _ rfl
    exact hstart.reading.ahead
  · rintro _ rfl
    exact ⟨hstart, rfl, rfl⟩
  · rintro encoded _ hvalid hencoded hfresh rfl
    have hdecoded := hc.table hencoded
    obtain ⟨hkeyed, hkept⟩ := hstart.1.create hfresh.symm hdecoded hname hvalid
    have horder : Orderly codec base _ := ⟨hkeyed, fun hk => hkept (hstart.2 hk)⟩
    refine ⟨trivial, ⟨horder, ⟨_, rfl, horder, hkept⟩, _, rfl, encoded, ?_, hdecoded⟩, hstart,
      hstart.reading.ahead, trivial⟩
    exact Function.update_self _ _ _

/-- A call that creates no table. -/
theorem reading_call {c : TxnCall} {Q : c.Val → Prop} (hstart : Orderly codec base start)
    (h : Behaves (orderlyRule codec) (Reading codec base start) Q (KVTransaction.call codec c))
    (hlearned : ∀ r, Ordinary Q r → ∀ table ∈ learned known c r, codec.Holds start table) :
    (KVTransaction.call codec c).wp (orderlyRule codec) (fun r phase =>
      Ordinary (fun _ => True) r ∧ ∃ view, phase = .running base view ∧ Orderly codec base view ∧
        ∀ table ∈ learned known c r, codec.Holds view table) (.running base start) := by
  apply Prog.wp_mono (orderlyRule_monotone codec) _ (h _ hstart.reading)
  rintro r _ ⟨⟨view, rfl, horder, htables⟩, hr⟩
  exact ⟨hr.mono fun _ _ => trivial, view, rfl, horder, fun table htable =>
    holds_kept (hlearned r hr table htable) (fun hk => (htables _).trans hk)⟩

/-- Every call leaves the store in order, and the tables that the program has in
hand in it. -/
theorem call_orderly (hc : Faithful codec) (hstart : Orderly codec base start)
    (hknown : ∀ table ∈ known, codec.Holds start table) {c : TxnCall}
    (hpermitted : Permitted (keySeparator ∉ ·) known c) :
    (KVTransaction.call codec c).wp (orderlyRule codec) (fun r phase =>
      Ordinary (fun _ => True) r ∧ ∃ view, phase = .running base view ∧ Orderly codec base view ∧
        ∀ table ∈ learned known c r, codec.Holds view table) (.running base start) := by
  have hs := reading_stores hc base start
  cases c with
  | createRow name row =>
    exact reading_call hstart (kv_createRow hs trivial (fun _ _ => trivial)) (fun _ _ => hknown)
  | updateRow table oldKey row =>
    exact reading_call hstart (kv_updateRow hs oldKey trivial ⟨rfl, hknown table hpermitted⟩
      (fun _ _ => trivial)) (fun _ _ => hknown)
  | deleteRow table pk =>
    refine reading_call hstart (Q := fun _ => True) ?_ (fun _ _ => hknown)
    refine (behaves_ofExcept (ordinary_and_eq (ordinary_rowKey _ pk))).bind hs.monotone
      (fun k hk => ?_)
    exact (reading_delete hk.2).wrap hs.monotone
  | scanTable table => exact reading_call hstart (kv_scanTable hs table) (fun _ _ => hknown)
  | createTable table =>
    apply Prog.wp_mono (orderlyRule_monotone codec) _ (createTable_orderly hc hpermitted hstart)
    rintro r _ ⟨⟨view, rfl, horder, hkept⟩, hr⟩
    refine ⟨hr.mono fun _ _ => trivial, view, rfl, horder, ?_⟩
    have hold : ∀ t ∈ known, codec.Holds view t := fun t ht => holds_kept (hknown t ht) hkept
    cases r with
    | ok _ =>
      obtain ⟨view', heq, hview'⟩ := hr
      cases heq
      exact List.forall_mem_cons.mpr ⟨hview', hold⟩
    | error e => exact hold
  | getTable name =>
    refine reading_call hstart (kv_getTable hs name) ?_
    intro r hr
    cases r with
    | ok o =>
      cases o with
      | none => exact hknown
      | some table => exact List.forall_mem_cons.mpr ⟨(hr table rfl).2, hknown⟩
    | error e => exact hknown

end Calls

/-- A careful program leaves the store in order after each of its calls. -/
theorem careful_orderly (hc : Faithful codec) {body : ExecM ResultSet}
    (hbody : Careful (keySeparator ∉ ·) known body) (hstart : Orderly codec base start)
    (hknown : ∀ table ∈ known, codec.Holds start table) :
    body.wp (kvRule codec (orderlyRule codec)) (fun _ phase => Underway phase)
      (.running base start) := by
  induction body generalizing known start with
  | done result => exact ⟨base, start, rfl⟩
  | fail f => exact ⟨base, start, rfl⟩
  | call c next ih =>
    apply Prog.wp_mono (orderlyRule_monotone codec) _ (call_orderly hc hstart hknown hbody.1)
    rintro r _ ⟨hr, view, rfl, horder, hlearned⟩
    refine ih r (hbody.2 r ?_) horder hlearned
    rintro message rfl
    exact hr

/-- So does a statement. -/
theorem session_orderly (hc : Faithful codec) {walk : Walk}
    (hwalk : ∀ l, (walk l).Perm l) (sql : Bytes) :
    (Session.execute codec walk sql).wp (orderlyRule codec) Ended .idle := by
  apply (orderlyRule_phased codec).statements
  · intro schema hplan db hdb
    apply Prog.wp_mono (orderlyRule_monotone codec) _
      (createTable_orderly hc (planned_text hplan).1.separated hdb.orderly)
    rintro _ _ ⟨⟨view, rfl, -⟩, -⟩
    exact ⟨db, view, rfl⟩
  · intro node hplan hnode db hdb
    have hbehaves := statement_behaves (reading_stores hc db db).serves hwalk (planned_text hplan)
      (fun _ _ => trivial) (fun schema heq => absurd heq (hnode schema))
    apply Prog.wp_mono (kvRule_monotone codec (orderlyRule_monotone codec)) _
      (hbehaves _ hdb.orderly.reading)
    rintro _ _ ⟨⟨view, rfl, -⟩, -⟩
    exact ⟨db, view, rfl⟩

section Worlds
variable {n : NilValue} {s s' : Sys} {executions : Nat → Option Execution}
    {setting : Setting} {w : World}

/-- An operation changes the writes only of a transaction that it leaves live. -/
theorem OpEffect.entry {o : Op} {r : Except Error Answer} {u : Nat} {y' : Txn}
    (he : OpEffect n s o s' r)
    (hy' : s'.txns u = some y') (hended : y'.status ≠ .live) :
    ∃ y, s.txns u = some y ∧ y'.writes = y.writes ∧ y'.seen = y.seen := by
  have hupdate : ∀ {t : Nat} {x z : Txn}, s.txns t = some x →
      Function.update s.txns t (some z) u = some y' →
      (z.status = .live ∨ z.writes = x.writes ∧ z.seen = x.seen) →
      ∃ y, s.txns u = some y ∧ y'.writes = y.writes ∧ y'.seen = y.seen := by
    intro t x z hx hu hz
    rw [Function.update_apply] at hu
    split_ifs at hu with heq
    · cases hu
      rcases hz with hlive | hsame
      · exact absurd hlive hended
      · exact ⟨x, heq ▸ hx, hsame⟩
    · exact ⟨y', hu, rfl, rfl⟩
  cases he with
  | begin counter markers =>
    change Function.update _ _ _ _ = _ at hy'
    rw [Function.update_apply] at hy'
    split_ifs at hy'
    · cases hy'
      exact absurd rfl hended
    · exact ⟨y', hy', rfl, rfl⟩
  | get live | scanPrefix live | conflict live blocked => exact ⟨y', hy', rfl, rfl⟩
  | @write t x k value live free =>
    obtain ⟨hx, hstatus⟩ := live_iff.mp live
    rw [wrote_txns hx] at hy'
    exact hupdate hx hy' (.inl hstatus)
  | @commit t x ks live writes =>
    have hx := (live_iff.mp live).1
    rw [record_commit_txns hx] at hy'
    exact hupdate hx hy' (.inr ⟨rfl, rfl⟩)
  | @rollback t x ks live writes =>
    have hx := (live_iff.mp live).1
    rw [record_rollback_txns hx] at hy'
    exact hupdate hx hy' (.inr ⟨rfl, rfl⟩)

structure Tidy (codec : Codec) (s : Sys) (executions : Nat → Option Execution) : Prop where
  executing : Executing (fun _ _ => True)
    (fun rest phase => rest.wp (orderlyRule codec) Ended phase)
    s executions
  views : ∀ {t x}, s.txns t = some x →
    Orderly codec (s.database x.seen) (applyWrites (s.database x.seen) x.writes)

theorem Tidy.commits (h : Tidy codec s executions) : KeyedStore codec (s.database s.commits) :=
  (keyedStore_absorbs codec).commits h.executing.sys h.views

theorem Served.mono {ok : Db → Bytes × Slice → Prop} {handle : Option Nat} {c : MvccCall}
    {P Q : MvccRet c → Phase → Prop} (h : Served n ok s handle c P)
    (hPQ : ∀ r phase, P r phase → Q r phase) :
    Served n ok s handle c Q := by
  obtain ⟨phase, hstands, hP⟩ := h.phase
  exact ⟨h.step, h.others, ⟨phase, hstands, hPQ _ _ hP⟩, h.handle⟩

/-- A call keeps the invariant, if it was served to the transaction of the caller. -/
theorem Tidy.call (h : Tidy codec s executions) (j : Nat) (sql : Bytes) {handle : Option Nat}
    {c : MvccCall} {next : MvccRet c → KvM ResultSet}
    (halone : ∀ {i e t}, i ≠ j → executions i = some e → e.handle = some t → handle ≠ some t)
    (hserved : Served n (fun _ _ => True) s handle c (fun r phase => InOrder codec phase ∧
      (next r).wp (orderlyRule codec) Ended phase))
    (hb : (serve n c (s, handle)).2.1.begins < 2 ^ 64) :
    Tidy codec (serve n c (s, handle)).2.1 (Function.update executions j (some ⟨sql,
      (serve n c (s, handle)).2.2, next (serve n c (s, handle)).1⟩)) := by
  refine ⟨h.executing.call j sql halone (hserved.mono fun _ _ hr => hr.2) hb, ?_⟩
  obtain ⟨o, r, hstep⟩ := hserved.step
  obtain ⟨phase, hstands, horder, -⟩ := hserved.phase
  obtain ⟨a, -, heffect⟩ :=
    op_effect h.executing.sys.encoded (h.executing.sys.counts hstep hb) hstep
  intro t x hx
  -- a transaction whose writes are the old ones
  have hold : (∃ y, s.txns t = some y ∧ x.writes = y.writes ∧ x.seen = y.seen) →
      Orderly codec ((serve n c (s, handle)).2.1.database x.seen)
        (applyWrites ((serve n c (s, handle)).2.1.database x.seen) x.writes) := by
    rintro ⟨y, hy, hwrites, hseen⟩
    rw [hwrites, hseen, heffect.database h.executing.sys hy]
    exact h.views hy
  by_cases ht : (serve n c (s, handle)).2.2 = some t
  · by_cases hlive : x.status = .live
    · rw [ht] at hstands
      have hstatus : ∀ {status y},
          Owns (fun _ _ => True) (serve n c (s, handle)).2.1 (some t) status y →
          y = x ∧ status = .live := by
        intro status y hown
        have hy := hown.txn
        rw [hx] at hy
        cases hy
        exact ⟨rfl, hown.status.symm.trans hlive⟩
      cases phase with
      | idle => cases hstands
      | running base view =>
        obtain ⟨y, hown, rfl, rfl⟩ := hstands
        obtain ⟨rfl, -⟩ := hstatus hown
        exact horder
      | committed =>
        obtain ⟨y, hown⟩ := hstands
        cases (hstatus hown).2
      | rolledBack =>
        obtain ⟨y, hown⟩ := hstands
        cases (hstatus hown).2
    · exact hold (heffect.entry hx hlive)
  · exact hold ⟨x, (hserved.others t ht).symm.trans hx, rfl, rfl⟩

/-- After a crash there is nobody left to keep to anything. -/
theorem Tidy.crash (h : Tidy codec s executions) {o : Op} {calls : Nat} {r : Result}
    (hdied : s.step n (.crash o calls) = some (s', r)) (hb : s'.begins < 2 ^ 64) :
    Tidy codec s' (fun _ => none) := by
  have hsys := h.executing.sys
  have heffect :=
    crash_effect hsys.encoded (hsys.counts hdied hb) (fun _ _ hl => hsys.marker hl) hdied
  refine ⟨⟨heffect.inv hsys hb, ?_, ?_⟩, ?_⟩
  · intro j e he
    cases he
  · intro i j e e' t he
    cases he
  · intro t x' hx'
    obtain ⟨x, hx, hwrites, hseen⟩ := heffect.entry hx'
    rw [hwrites, hseen, crash_database hsys hb hdied hx]
    exact h.views hx

/-- One event of the sessions. -/
theorem Tidy.event (hc : Faithful setting.codec)
    (h : Tidy setting.codec w.sys w.executions) {w' : World}
    (heffect : WorldEffect setting w w') (hb : w'.sys.begins < 2 ^ 64 - 1) :
    Tidy setting.codec w'.sys w'.executions := by
  have hle := heffect.begins_le
  cases heffect with
  | start sql =>
    exact ⟨h.executing.start w.started sql (session_orderly hc (setting.walks.perm _) sql), h.views⟩
  | @advance j sql handle c next pending =>
    obtain ⟨phase, hstands, hwp⟩ := h.executing.each pending
    have halone : ∀ {i e t}, i ≠ j → w.executions i = some e → e.handle = some t →
        handle ≠ some t :=
      fun hi he ht heq => hi (h.executing.distinct he pending ht heq)
    have hlt : w.sys.begins < 2 ^ 64 - 1 := lt_of_le_of_lt hle hb
    exact h.call j sql halone (serve_sound h.executing.sys hlt (fun _ => h.commits) hstands hwp)
      (lt_trans hb (by decide))
  | crash died => exact h.crash died (lt_trans hb (by decide))

/-- A program has begun a transaction. -/
theorem Tidy.begin (hc : Faithful setting.codec) (h : Tidy setting.codec w.sys w.executions)
    {body : ExecM ResultSet} {w' : World}
    (held : ∀ table ∈ known, setting.codec.Holds (w.sys.database w.sys.commits) table)
    (careful : Careful (keySeparator ∉ ·) known body)
    (hstep : setting.step (setting.join w body) (.advance w.started) = some w')
    (hb : w'.sys.begins < 2 ^ 64 - 1) : Tidy setting.codec w'.sys w'.executions := by
  have hpending : (setting.join w body).executions w.started =
      some ⟨[], none, KVEngine.transact setting.codec body⟩ := Function.update_self _ _ _
  have hbegin : KVEngine.transact setting.codec body = .call .begin
      (fun r => (Prog.check Fault.error r).bind fun _ => (body.through fun c =>
        (KVTransaction.call setting.codec c).attempt).attempt.bind Session.finish) := rfl
  rw [hbegin] at hpending
  simp only [Setting.step, hpending] at hstep
  cases hstep
  have hlt : w.sys.begins < 2 ^ 64 - 1 := lt_of_le_of_lt (serve_begins_le _ _ _ _) hb
  have hserved := @served_begin setting.nil w.sys (· = w.sys.database w.sys.commits)
    (fun _ _ => True) h.executing.sys hlt rfl (fun r phase => InOrder setting.codec phase ∧
      ((Prog.check Fault.error r).bind fun _ => (body.through fun c =>
        (KVTransaction.call setting.codec c).attempt).attempt.bind Session.finish).wp
        (orderlyRule setting.codec) Ended phase) ?_
  · change Tidy _ _ (Function.update (Function.update _ _ _) _ _)
    rw [Function.update_idem]
    exact h.call w.started [] (fun _ _ _ hnone => by cases hnone) hserved (lt_trans hb (by decide))
  · rintro _ rfl
    exact ⟨h.commits.orderly,
      (orderlyRule_phased _).finish (careful_orderly hc careful h.commits.orderly held)⟩

/-- The invariant along every run of sessions and programs. -/
theorem used_tidy (hc : Faithful setting.codec) (h : setting.Used (keySeparator ∉ ·) w)
    (hb : w.sys.begins < 2 ^ 64 - 1) : Tidy setting.codec w.sys w.executions := by
  induction h with
  | init =>
    refine ⟨⟨inv_init, ?_, ?_⟩, ?_⟩
    · intro j e h
      cases h
    · intro i j e e' t h
      cases h
    · intro t x h
      cases h
  | event before step ih =>
    have heffect := world_effect step
    exact (ih (lt_of_le_of_lt heffect.begins_le hb)).event hc heffect hb
  | begin before held careful step ih =>
    have hle := (world_effect step).begins_le
    exact (ih (lt_of_le_of_lt hle hb)).begin hc held careful step hb

end Worlds

end SpaceDB.Proofs
