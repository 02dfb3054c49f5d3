import SpaceDB.Lib.Refinement
import SpaceDB.Proofs.TableIsolation

namespace SpaceDB.Proofs
open Lib Storage Sql Engine

/-- A database as one map, without versions and transactions. -/
abbrev Contents := OrderedMap Bytes Bytes

def under (m : Contents) (start : Bytes) : List (Bytes × Bytes) :=
  m.entries.filter fun e => start.isPrefixOf e.1

def direct : Handler MvccCall MvccRet Contents
  | .get key, m => (.ok (m.find? key), m)
  | .scanPrefix start, m => (.ok ((under m start).map fun e => ⟨e.1, some e.2⟩), m)
  | .set key value, m => (.ok (), m.insert key value)
  | .delete key, m => (.ok (), m.erase key)
  | .begin, m => (.ok (), m)
  | .commit, m => (.ok (), m)
  | .rollback, m => (.ok (), m)

def tables (codec : Codec) : Handler TxnCall TxnRet Contents :=
  fun c m => (KVTransaction.call codec c).run direct m

/-- A statement on the map: it takes effect as a whole, or not at all. -/
def serially (setting : Setting) (i : Nat) (sql : Bytes) (m : Contents) :
    Outcome ResultSet × Contents :=
  match Session.plan sql with
  | .error e => (.error e, m)
  | .ok node =>
    match (Sql.execute (setting.walks.order i) node).run (tables setting.codec) m with
    | (.ok result, m') => (.ok result, m')
    | (.error (.error e), _) => (.error (.error (.wrap "engine: executing statement: %w" [] e)), m)
    | (.error (.panic message), _) => (.error (.panic message), m)

def Finished (s : Sys) : Prop :=
  ∀ t x, s.txns t = some x → x.status = .committed ∨ x.status = .rolledBack

def allEnded (s : Sys) : Bool :=
  (List.range s.begins).all fun t => (s.txns t).all fun x =>
    decide (x.status = .committed ∨ x.status = .rolledBack)

theorem finished_of_allEnded {s : Sys} (hbound : ∀ {t x}, s.txns t = some x → t < s.begins)
    (h : allEnded s = true) : Finished s := by
  intro t x hx
  have ht := List.all_eq_true.mp h t (List.mem_range.mpr (hbound hx))
  rw [hx] at ht
  exact of_decide_eq_true ht

def Holding (db : Db) (m : Contents) : Prop := ∀ k, db k = m.find? k

variable {n : NilValue} {s s' : Sys} {t : Nat} {x : Txn} {m base : Contents}

theorem mem_under {start : Bytes} {e : Bytes × Bytes} :
    e ∈ under m start ↔ start <+: e.1 ∧ m.find? e.1 = some e.2 := by
  unfold under
  rw [List.mem_filter, List.isPrefixOf_iff_prefix, OrderedMap.find?_eq_some, and_comm]

theorem under_sorted (m : Contents) (start : Bytes) :
    (under m start).Pairwise (fun a b => a.1 < b.1) := m.sorted.filter _

theorem Holding.write {db : Db} (h : Holding db m) (k v : Bytes) :
    Holding (Function.update db k (some v)) (m.insert k v) := by
  intro k'
  rw [Function.update_apply, OrderedMap.find?_insert, h k']
  split_ifs <;> rfl

theorem Holding.erase {db : Db} (h : Holding db m) (k : Bytes) :
    Holding (Function.update db k none) (m.erase k) := by
  intro k'
  rw [Function.update_apply, OrderedMap.find?_erase, h k']
  split_ifs <;> rfl

theorem holding_writes {db : Db} (h : Holding db m) (ws : List (Bytes × Slice)) :
    ∃ m', Holding (applyWrites db ws) m' := by
  induction ws generalizing db m with
  | nil => exact ⟨m, h⟩
  | cons w ws ih =>
    obtain ⟨k, v⟩ := w
    cases v with
    | none => exact ih (h.erase k)
    | some v => exact ih (h.write k v)

/-- What transactions have written is always a map. -/
theorem holding_database (s : Sys) (us : List Nat) : ∃ m, Holding (s.database us) m := by
  induction us using List.reverseRecOn with
  | nil => exact ⟨.empty, fun _ => rfl⟩
  | append_singleton us u ih =>
    obtain ⟨m, hm⟩ := ih
    obtain ⟨m', hm'⟩ := holding_writes hm (writesOf s u)
    refine ⟨m', fun k => ?_⟩
    rw [← hm' k, database_append, applyWrites_eq]

/-- A scan in terms of the map. -/
theorem Reader.scan_under {db : Db} {handle : Option Nat} (h : Reader s handle db)
    (hm : Holding db m)
    (start : Bytes) : serve n (.scanPrefix start) (s, handle) =
      (.ok ((under m start).map fun e => ⟨e.1, some e.2⟩), (s, handle)) := by
  obtain ⟨es, hserve, hsorted, hmem⟩ := h.scanPrefix (n := n) start
  have hes : es = (under m start).map fun e => ⟨e.1, some e.2⟩ := by
    apply List.Pairwise.eq_of_mem_iff hsorted (List.pairwise_map.mpr (under_sorted m start))
    intro e
    rw [hmem, List.mem_map, hm e.key]
    constructor
    · rintro ⟨hstart, hsome, hvalue⟩
      obtain ⟨v, hv⟩ := Option.isSome_iff_exists.mp hsome
      refine ⟨(e.key, v), mem_under.mpr ⟨hstart, hvalue.symm.trans hv⟩, ?_⟩
      rw [← hv]
    · rintro ⟨e', he', rfl⟩
      obtain ⟨hstart, hvalue⟩ := mem_under.mp he'
      exact ⟨hstart, rfl, hvalue.symm⟩
  rw [← hes]
  exact hserve

/-- A state in which every transaction has ended, and the map it amounts to. -/
structure AtRest (s : Sys) (m : Contents) : Prop where
  sys : Inv s
  finished : Finished s
  holding : Holding (s.database s.commits) m

/-- `t` is the last transaction and the only one that has not ended. It began
with `base` and now sees `m`. -/
structure Sole (s : Sys) (t : Nat) (base m : Contents) : Prop where
  sys : Inv s
  begins : s.begins = t + 1
  bound : t + 1 < 2 ^ 64 - 1
  others : ∀ u y, s.txns u = some y → u ≠ t → y.status = .committed ∨ y.status = .rolledBack
  base : Holding (s.database s.commits) base
  txn : ∃ x, s.live t = some x ∧ x.seen = s.commits ∧
    Holding (applyWrites (s.database x.seen) x.writes) m

theorem Sole.begins_lt (h : Sole s t base m) : s.begins < 2 ^ 64 - 1 := h.begins ▸ h.bound

theorem Sole.reader (h : Sole s t base m) : Reader s (some t) m.find? := by
  obtain ⟨x, hl, -, hview⟩ := h.txn
  exact ⟨h.sys, h.begins_lt, t, x, rfl, hl, funext hview⟩

/-- What is in the store has been committed before the transaction began, or is
its own. -/
theorem Sole.free (h : Sole s t base m) (hl : s.live t = some x) (k : Bytes) :
    ¬ Blocked s.store x.state k := by
  have hx := (live_iff.mp hl).1
  obtain ⟨x', hl', hseen, -⟩ := h.txn
  rw [hl] at hl'
  cases hl'
  rw [h.sys.blocked_iff hx]
  rintro ⟨v, hrecord, hvisible⟩
  obtain ⟨u, y, hy, rfl⟩ := h.sys.owned hrecord
  apply Bool.false_ne_true
  rw [← hvisible]
  by_cases hu : u = t
  · rw [hu, hx] at hy
    cases hy
    exact isVisible_iff.mpr ⟨fun hin => lt_irrefl _ (h.sys.activeBelow hx hin), le_refl _⟩
  · rcases h.others u y hy hu with hstatus | hstatus
    · have hin : u ∈ x.seen := hseen ▸ h.sys.committed.mpr ⟨y, hy, hstatus⟩
      obtain ⟨z, hz, -, hz'⟩ := h.sys.visible_of_seen hx hin
      rw [hy] at hz
      cases hz
      exact hz'
    · have hstored := h.sys.stored hy
      simp only [Stored, hstatus] at hstored
      rw [hstored.2.1 k] at hrecord
      cases hrecord

/-- The transactions whose writes make up the database are not touched. -/
theorem OpEffect.committed {o : Op} {r : Except Error Answer}
    (he : OpEffect n s o s' r) (h : Inv s) :
    s'.database s.commits = s.database s.commits := by
  apply database_congr
  intro u hu
  obtain ⟨y, hy, hstatus⟩ := h.committed.mp hu
  rw [hy]
  exact he.frame h.toBase hy (.inr (by simp [hstatus]))

/-- A write of the only transaction is never refused. -/
theorem Sole.write (h : Sole s t base m) {c : MvccCall} {k : Bytes} {value : Slice} {m' : Contents}
    (hop : c.op (some t) = some (writeOp t k value))
    (hnext : ∀ r, c.next (some t) s.begins r = some t)
    (hm : ∀ {db}, Holding db m → Holding (Function.update db k value) m') :
    ∃ s', serve n c (s, some t) = (c.answer (.ok .unit), (s', some t)) ∧ Sole s' t base m' := by
  obtain ⟨x, hl, hseen, hview⟩ := h.txn
  have hx := (live_iff.mp hl).1
  have hstep := step_write (n := n) h.sys.encoded hl (h.free hl k) value
  obtain ⟨a, -, heffect⟩ := op_effect h.sys.encoded (by cases value <;> simp [writeOp]) hstep
  have htxns := wrote_txns hx (written n x.state.version k value s.store) k value
  have hinv := heffect.inv h.sys (Nat.lt_trans h.begins_lt (by decide))
  refine ⟨_, ?_, hinv, h.begins, h.bound, ?_, ?_, ?_⟩
  · rw [serve_eq hop hstep, hnext]
  · intro u y hy hu
    rw [htxns, Function.update_of_ne hu] at hy
    exact h.others u y hy hu
  · exact (heffect.committed h.sys).symm ▸ h.base
  · refine ⟨{ x with writes := x.writes ++ [(k, value)] }, ?_, hseen, ?_⟩
    · rw [live_iff, htxns, Function.update_self]
      exact ⟨rfl, (live_iff.mp hl).2⟩
    · have hdb := heffect.database h.sys hx
      change Holding (applyWrites (Sys.database _ x.seen) _) m'
      rw [hdb]
      simpa [applyWrites] using hm hview

/-- On the data a lone transaction answers as the map does. -/
theorem Sole.answers (h : Sole s t base m) {c : MvccCall} (hc : onData c) :
    ∃ s', serve n c (s, some t) = ((direct c m).1, (s', some t)) ∧
      Sole s' t base (direct c m).2 := by
  cases c with
  | begin | commit | rollback => exact hc.elim
  | get key => exact ⟨s, h.reader.get key, h⟩
  | scanPrefix start => exact ⟨s, h.reader.scan_under (fun _ => rfl) start, h⟩
  | set key value => exact h.write rfl (fun _ => rfl) (fun hdb => hdb.write key value)
  | delete key => exact h.write rfl (fun _ => rfl) (fun hdb => hdb.erase key)

/-- A transaction that begins now is the only one. -/
theorem AtRest.begin (h : AtRest s m) (hb : s.begins + 1 < 2 ^ 64 - 1) :
    ∃ s', serve n .begin (s, none) = (.ok (), (s', some s.begins)) ∧ Sole s' s.begins m m := by
  obtain ⟨next, hnext, -⟩ := h.sys.counter (by omega)
  obtain ⟨active, hactive, hstep⟩ := step_begin (n := n) h.sys.encoded hnext
  obtain ⟨a, -, heffect⟩ := op_effect h.sys.encoded (fun _ => ⟨next, hnext⟩) hstep
  have hinv := heffect.inv h.sys (show s.begins + 1 < 2 ^ 64 by omega)
  refine ⟨_, serve_eq rfl hstep, hinv, rfl, hb, ?_, ?_, ?_⟩
  · intro u y hy hu
    rw [show (opened n s ⟨next, active⟩).txns u = s.txns u from Function.update_of_ne hu _ _] at hy
    exact h.finished u y hy
  · exact (heffect.committed h.sys).symm ▸ h.holding
  · refine ⟨⟨⟨next, active⟩, .live, [], s.commits⟩, ?_, rfl, ?_⟩
    · exact live_iff.mpr ⟨Function.update_self _ _ _, rfl⟩
    · exact (heffect.committed h.sys).symm ▸ h.holding

theorem Sole.finished_of (h : Sole s t base m) {status : Status}
    (hstatus : status = .committed ∨ status = .rolledBack)
    (htxns : s'.txns = Function.update s.txns t (some { x with status })) : Finished s' := by
  intro u y hy
  rw [htxns, Function.update_apply] at hy
  split_ifs at hy with hu
  · cases hy
    exact hstatus
  · exact h.others u y hy hu

/-- Its Commit leaves the map it sees. -/
theorem Sole.commit (h : Sole s t base m) :
    ∃ s', serve n .commit (s, some t) = (.ok (), (s', some t)) ∧ AtRest s' m ∧
      s'.begins = t + 1 := by
  obtain ⟨x, hl, hseen, hview⟩ := h.txn
  have hx := (live_iff.mp hl).1
  obtain ⟨ks, -, hrun, -⟩ := commit_spec (n := n) h.sys.encoded x.state
  have hstep : s.step n (.op (.commit t)) = some (s.record (.commit t) (.ok .unit)
      (eraseAll (commitKeys x.state.version ks) s.store), some (.ok .unit)) :=
    step_op (program_commit hl) hrun
  obtain ⟨a, -, heffect⟩ := op_effect h.sys.encoded Op.noConfusion hstep
  have htxns := record_commit_txns hx (eraseAll (commitKeys x.state.version ks) s.store)
  refine ⟨_, serve_eq rfl hstep,
    ⟨heffect.inv h.sys (Nat.lt_trans h.begins_lt (by decide)), ?_, ?_⟩, h.begins⟩
  · exact h.finished_of (.inl rfl) htxns
  · have hown : (s.record (.commit t) (.ok .unit)
        (eraseAll (commitKeys x.state.version ks) s.store)).txns t =
        some { x with status := .committed } := by
      rw [htxns, Function.update_self]
    change Holding (Sys.database _ (s.commits ++ [t])) m
    rw [database_snoc _ hown, heffect.committed h.sys, ← hseen]
    exact hview

/-- Its Rollback leaves the map it began with. -/
theorem Sole.rollback (h : Sole s t base m) :
    ∃ s', serve n .rollback (s, some t) = (.ok (), (s', some t)) ∧ AtRest s' base ∧
      s'.begins = t + 1 := by
  obtain ⟨x, hl, hseen, hview⟩ := h.txn
  have hx := (live_iff.mp hl).1
  obtain ⟨ks, -, hrun, -⟩ := rollback_spec (n := n) h.sys.encoded x.state
  have hstep : s.step n (.op (.rollback t)) = some (s.record (.rollback t) (.ok .unit)
      (eraseAll (rollbackKeys x.state.version ks) s.store), some (.ok .unit)) :=
    step_op (program_rollback hl) hrun
  obtain ⟨a, -, heffect⟩ := op_effect h.sys.encoded Op.noConfusion hstep
  have htxns := record_rollback_txns hx (eraseAll (rollbackKeys x.state.version ks) s.store)
  refine ⟨_, serve_eq rfl hstep,
    ⟨heffect.inv h.sys (Nat.lt_trans h.begins_lt (by decide)), ?_, ?_⟩, h.begins⟩
  · exact h.finished_of (.inr rfl) htxns
  · exact (heffect.committed h.sys).symm ▸ h.base

section Programs
variable (codec : Codec)

theorem getTable_onData (name : Bytes) :
    (KVTransaction.getTable codec name).Guarded onData (fun _ _ => False) := by
  refine (Prog.guarded_ofExcept _).bind (fun key => (mvcc_guarded trivial).bind (fun v => ?_))
  cases v with
  | none => trivial
  | some encoded => exact (Prog.guarded_check _ _).bind (fun _ => trivial)

theorem createTable_onData (table : Table) :
    (KVTransaction.createTable codec table).Guarded onData (fun _ _ => False) := by
  refine (Prog.guarded_ofExcept _).bind (fun _ => (getTable_onData codec _).bind (fun found => ?_))
  split_ifs
  · exact Prog.guarded_ofExcept _
  · refine (Prog.guarded_ofExcept _).bind
      (fun key => (Prog.guarded_check _ _).bind (fun encoded => ?_))
    exact mvcc_guarded trivial

theorem createRow_onData (name : Bytes) (row : Row) :
    (KVTransaction.createRow codec name row).Guarded onData (fun _ _ => False) := by
  refine (getTable_onData codec name).mapError.bind (fun found => ?_)
  cases found with
  | none => exact Prog.guarded_ofExcept _
  | some table =>
    refine (Prog.guarded_ofExcept _).bind (fun _ => (Prog.guarded_ofExcept _).bind (fun pk => ?_))
    refine (Prog.guarded_ofExcept _).bind
      (fun key => (mvcc_guarded trivial).mapError.bind (fun v => ?_))
    split_ifs
    · exact Prog.guarded_ofExcept _
    · exact (Prog.guarded_check _ _).bind (fun encoded => mvcc_guarded trivial)

theorem moveRow_onData (table : Table) (old new : Value) (key : Bytes) :
    (KVTransaction.moveRow table old new key).Guarded onData (fun _ _ => False) := by
  unfold KVTransaction.moveRow
  split_ifs
  · refine (Prog.guarded_ofExcept _).bind
      (fun oldKey => (mvcc_guarded trivial).mapError.bind (fun v => ?_))
    split_ifs
    · exact Prog.guarded_ofExcept _
    · exact (mvcc_guarded trivial).mapError
  · trivial

theorem updateRow_onData (table : Table) (old : Value) (row : Row) :
    (KVTransaction.updateRow codec table old row).Guarded onData (fun _ _ => False) := by
  refine (Prog.guarded_ofExcept _).bind (fun _ => (Prog.guarded_ofExcept _).bind (fun pk => ?_))
  refine (Prog.guarded_ofExcept _).bind
    (fun key => (moveRow_onData table old pk key).bind (fun _ => ?_))
  exact (Prog.guarded_check _ _).bind (fun encoded => mvcc_guarded trivial)

/-- The methods of a transaction neither begin nor end one. -/
theorem call_onData (c : TxnCall) :
    (KVTransaction.call codec c).Guarded onData (fun _ _ => False) := by
  cases c with
  | createRow name row => exact createRow_onData codec name row
  | updateRow table old row => exact updateRow_onData codec table old row
  | deleteRow table pk =>
    exact (Prog.guarded_ofExcept _).bind (fun key => (mvcc_guarded trivial).mapError)
  | scanTable table =>
    refine (Prog.guarded_ofExcept _).bind (fun start => ?_)
    exact (mvcc_guarded trivial).mapError.bind (fun es => Prog.guarded_ofExcept _)
  | createTable table => exact createTable_onData codec table
  | getTable name => exact getTable_onData codec name

end Programs

/-- A program on the data runs in a lone transaction as it does on the map. -/
theorem Sole.run {α : Type} (h : Sole s t base m) {p : KvM α}
    (hp : p.Guarded onData (fun _ _ => False)) :
    ∃ s', p.run (serve n) (s, some t) = ((p.run direct m).1, (s', some t)) ∧
      Sole s' t base (p.run direct m).2 := by
  obtain ⟨hanswer, s', hstate, hsole⟩ := hp.run_refines (h := serve n) (k := direct)
    (R := fun w m => ∃ s', w = (s', some t) ∧ Sole s' t base m) (s := (s, some t))
      (fun c _ m hc hr => by
      obtain ⟨s₁, rfl, hs₁⟩ := hr
      obtain ⟨s₂, hserve, hs₂⟩ := hs₁.answers (n := n) hc
      rw [hserve]
      exact ⟨rfl, s₂, rfl, hs₂⟩) ⟨s, rfl, h⟩
  exact ⟨s', Prod.ext hanswer hstate, hsole⟩

/-- So do executors. -/
theorem Sole.executors {α : Type} (h : Sole s t base m) (codec : Codec) (p : ExecM α) :
    ∃ s', (p.through fun c => (KVTransaction.call codec c).attempt).run (serve n) (s, some t) =
        ((p.run (tables codec) m).1, (s', some t)) ∧ Sole s' t base (p.run (tables codec) m).2 := by
  obtain ⟨s', hrun, hsole⟩ := h.run (n := n)
    (Prog.guarded_through (fun c => Prog.guarded_attempt (call_onData codec c)) p)
  rw [Prog.run_through (h := direct)] at hrun hsole
  exact ⟨s', hrun, hsole⟩

section Calls
variable {σ : Type} {h : Handler MvccCall MvccRet σ} {w w' : σ}

theorem run_mvcc (c : MvccCall) :
    (mvcc c).run h w = ((h c w).1.mapError Fault.error, (h c w).2) := by
  unfold mvcc Prog.perform
  rw [Prog.bind_eq, Prog.bind_call, Prog.run_call]
  cases (h c w).1 <;> rfl

theorem mvcc_run {c : MvccCall} {a : c.Val} (hc : h c w = (.ok a, w')) :
    (mvcc c).run h w = (.ok a, w') := by
  rw [run_mvcc, hc]
  rfl

theorem kv_wrap_inv {α : Type} {p : KvM α} {a : α} {format : String} {args : List Arg}
    (hrun : (p.wrap format args).run h w = (.ok a, w')) : p.run h w = (.ok a, w') := by
  unfold KvM.wrap at hrun
  rw [Prog.run_mapError, Prod.mk.injEq] at hrun
  exact Prod.ext (outcome_wrap_ok hrun.1) hrun.2

theorem coded_bind_inv {α β : Type} {r : Except Error α} {f : α → KvM β} {b : β} {format : String}
    {args : List Arg} (hrun : ((coded format args r).bind f).run h w = (.ok b, w')) :
    ∃ a, r = .ok a ∧ (f a).run h w = (.ok b, w') := by
  cases r with
  | ok a => exact ⟨a, rfl, hrun⟩
  | error e => cases hrun

theorem kv_wrap_ok {α : Type} {p : KvM α} {a : α} (hp : p.run h w = (.ok a, w')) (format : String)
    (args : List Arg) : (p.wrap format args).run h w = (.ok a, w') := by
  unfold KvM.wrap
  rw [Prog.run_mapError, hp]
  rfl

theorem finish_ok (hcommit : h .commit w = (.ok (), w')) (result : ResultSet) :
    (Session.finish (.ok result)).run h w = (.ok result, w') :=
  Prog.run_bind_ok h (kv_wrap_ok (mvcc_run hcommit) _ _) _

theorem finish_error (hrollback : h .rollback w = (.ok (), w')) (e : Error) :
    (Session.finish (.error (.error e))).run h w =
      (.error (.error (.wrap "engine: executing statement: %w" [] e)), w') := by
  have hrun : (Prog.perform .rollback : KvM _).run h w = (.ok (.ok ()), w') := by
    unfold Prog.perform
    rw [Prog.run_call, hrollback]
    rfl
  exact Prog.run_bind_ok h hrun _

end Calls

/-- A statement that runs alone has the result that it has on the map, and
leaves the map that it leaves. Unless it panics, its transaction ends. -/
theorem AtRest.execute (h : AtRest s m) (hb : s.begins + 1 < 2 ^ 64 - 1)
    (setting : Setting) (i : Nat)
    (sql : Bytes) : ∃ s', setting.execute i sql s = ((serially setting i sql m).1, s') ∧
      s'.begins ≤ s.begins + 1 ∧ Holding (s'.database s'.commits) (serially setting i sql m).2 ∧
      (panicked (serially setting i sql m).1 = false → AtRest s' (serially setting i sql m).2) := by
  unfold Setting.execute Session.execute serially
  cases hplan : Session.plan sql with
  | error e => exact ⟨s, rfl, Nat.le_succ _, h.holding, fun _ => h⟩
  | ok node =>
    simp only
    obtain ⟨s₁, hbegin, hsole₁⟩ := h.begin (n := setting.nil) hb
    obtain ⟨s₂, hbody, hsole₂⟩ := hsole₁.executors (n := setting.nil) setting.codec
      (Sql.execute (setting.walks.order i) node)
    have hattempt := Prog.run_attempt (serve setting.nil) (ε := Fault) ((Sql.execute
      (setting.walks.order i) node).through fun c => (KVTransaction.call setting.codec c).attempt)
      (s₁, some s.begins)
    rw [hbody] at hattempt
    have hrun : (Session.transact setting.codec (setting.walks.order i) node).run
        (serve setting.nil)
        (s, none) = (Session.finish ((Sql.execute (setting.walks.order i) node).run
          (tables setting.codec) m).1).run (serve setting.nil) (s₂, some s.begins) := by
      unfold Session.transact
      rw [Prog.bind_eq, Prog.run_bind_ok _ (kv_wrap_ok (mvcc_run hbegin) _ _), Prog.bind_eq,
        Prog.run_bind_ok _ hattempt]
    rw [Prog.bind_eq, Prog.ofExcept_ok, Prog.bind_done, hrun]
    generalize (Sql.execute (setting.walks.order i) node).run
      (tables setting.codec) m = r at hsole₂ ⊢
    obtain ⟨result, m'⟩ := r
    cases result with
    | ok a =>
      obtain ⟨s₃, hcommit, hrest, hbegins⟩ := hsole₂.commit (n := setting.nil)
      refine ⟨s₃, ?_, le_of_eq hbegins, hrest.holding, fun _ => hrest⟩
      rw [finish_ok hcommit]
    | error e =>
      cases e with
      | panic message =>
        exact ⟨s₂, rfl, le_of_eq hsole₂.begins, hsole₂.base, fun hpanic => by cases hpanic⟩
      | error e =>
        obtain ⟨s₃, hrollback, hrest, hbegins⟩ := hsole₂.rollback (n := setting.nil)
        refine ⟨s₃, ?_, le_of_eq hbegins, hrest.holding, fun _ => hrest⟩
        rw [finish_error hrollback]

theorem AtRest.result (h : AtRest s m) (hb : s.begins + 1 < 2 ^ 64 - 1)
    (setting : Setting) (i : Nat)
    (sql : Bytes) : (setting.execute i sql s).1 = (serially setting i sql m).1 := by
  obtain ⟨s', heq, -⟩ := h.execute hb setting i sql
  rw [heq]

/-- A statement that has succeeded alone leaves the database at rest. -/
theorem AtRest.after (h : AtRest s m) (hb : s.begins + 1 < 2 ^ 64 - 1) {setting : Setting} {i : Nat}
    {sql : Bytes} {result : ResultSet} {m' : Contents}
    (hserial : serially setting i sql m = (.ok result, m')) :
    AtRest (setting.execute i sql s).2 m' ∧ (setting.execute i sql s).2.begins ≤ s.begins + 1 := by
  obtain ⟨s', heq, hbegins, -, hrest⟩ := h.execute hb setting i sql
  rw [hserial] at hrest
  rw [heq]
  exact ⟨hrest rfl, hbegins⟩

/-- A statement that has succeeded alone, and its effect on the map. -/
theorem AtRest.step {setting : Setting} {i : Nat} {sql : Bytes} {result : ResultSet}
    (h : AtRest s m) (hb : s.begins + 1 < 2 ^ 64 - 1)
    (hrun : setting.execute i sql s = (.ok result, s')) :
    ∃ m', serially setting i sql m = (.ok result, m') ∧ AtRest s' m' ∧
      s'.begins ≤ s.begins + 1 := by
  have hresult := h.result hb setting i sql
  rw [hrun] at hresult
  have hserial : serially setting i sql m = (.ok result, (serially setting i sql m).2) :=
    Prod.ext hresult.symm rfl
  have hafter := h.after hb hserial
  rw [hrun] at hafter
  exact ⟨_, hserial, hafter⟩

theorem AtRest.look (h : AtRest s m) (hb : s.begins + 1 < 2 ^ 64 - 1)
    (setting : Setting) (c : TxnCall) :
    setting.look s c = (tables setting.codec c m).1 := by
  obtain ⟨s₁, hbegin, hsole⟩ := h.begin (n := setting.nil) hb
  obtain ⟨s₂, hcall, -⟩ := hsole.run (n := setting.nil) (call_onData setting.codec c)
  unfold Setting.look
  rw [Prog.run_bind_ok _ (mvcc_run hbegin), hcall]
  rfl

theorem Inv.atRest (h : Inv s) (hfinished : Finished s) : ∃ m, AtRest s m := by
  obtain ⟨m, hm⟩ := holding_database s s.commits
  exact ⟨m, h, hfinished, hm⟩

/-- In every reachable world in which every transaction has ended. -/
theorem reaches_atRest {setting : Setting} {w : World} (hc : Faithful setting.codec)
    (h : setting.Reaches w) (hfinished : Finished w.sys) (hb : w.sys.begins < 2 ^ 64 - 1) :
    ∃ m, AtRest w.sys m ∧ RowStore setting.codec m.find? := by
  have hsound := reaches_rowStore hc h hb
  obtain ⟨m, hrest⟩ := hsound.sys.atRest hfinished
  refine ⟨m, hrest, ?_⟩
  rw [← funext hrest.holding]
  exact (rowStore_merges setting.codec).commits hsound.sys hsound.writes

end SpaceDB.Proofs
