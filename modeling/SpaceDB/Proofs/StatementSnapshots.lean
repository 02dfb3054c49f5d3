import SpaceDB.Proofs.RefusedWrites
import SpaceDB.Proofs.StatementAtomicity

namespace SpaceDB.Proofs
open Lib Storage Sql Engine

variable {n : NilValue} {s s' : Sys} {t : Nat} {x : Txn} {m : Contents} {base : Db}
  {ws : List (Bytes × Slice)}  {setting : Setting} {w w' : World}

def overwritten (m : Contents) (ws : List (Bytes × Slice)) : Contents :=
  ws.foldl (fun m w => w.2.elim (m.erase w.1) (m.insert w.1)) m

def committedMap (s : Sys) (us : List Nat) : Contents :=
  us.foldl (fun m u => overwritten m (writesOf s u)) .empty

theorem holding_overwritten {db : Db} (h : Holding db m) (ws : List (Bytes × Slice)) :
    Holding (applyWrites db ws) (overwritten m ws) := by
  induction ws generalizing db m with
  | nil => exact h
  | cons w ws ih =>
    obtain ⟨k, v⟩ := w
    cases v with
    | none => exact ih (h.erase k)
    | some v => exact ih (h.write k v)

theorem committedMap_append (s : Sys) (us : List Nat) (u : Nat) :
    committedMap s (us ++ [u]) = overwritten (committedMap s us) (writesOf s u) := by
  unfold committedMap
  rw [List.foldl_append]
  rfl

theorem holding_committed (s : Sys) (us : List Nat) :
    Holding (s.database us) (committedMap s us) := by
  induction us using List.reverseRecOn with
  | nil => exact fun _ => rfl
  | append_singleton us u ih =>
    intro k
    rw [database_append, ← applyWrites_eq, committedMap_append]
    exact holding_overwritten ih (writesOf s u) k

theorem Holding.unique {db : Db} {m' : Contents} (h : Holding db m) (h' : Holding db m') : m = m' :=
  OrderedMap.ext_find? fun k => (h k).symm.trans (h' k)

def callWrites : MvccCall → List (Bytes × Slice)
  | .set key value => [(key, some value)]
  | .delete key => [(key, none)]
  | _ => []

def traceWrites (cs : List MvccCall) : List (Bytes × Slice) := cs.flatMap callWrites

@[simp] theorem traceWrites_nil : traceWrites [] = [] := rfl

@[simp] theorem traceWrites_cons (c : MvccCall) (cs : List MvccCall) :
    traceWrites (c :: cs) = callWrites c ++ traceWrites cs := List.flatMap_cons

/-- Transaction `t` began with `base`, has written `ws` and now sees `m`. -/
structure Viewing (s : Sys) (t : Nat) (base : Db) (ws : List (Bytes × Slice)) (m : Contents) :
    Prop where
  txn : ∃ x, s.txns t = some x ∧ s.database x.seen = base ∧ x.writes = ws
  view : Holding (applyWrites base ws) m

theorem Viewing.frame (h : Viewing s t base ws m) (ht : s'.txns t = s.txns t)
    (hdb : ∀ {x}, s.txns t = some x → s'.database x.seen = s.database x.seen) :
    Viewing s' t base ws m := by
  obtain ⟨x, hx, hbase, hwrites⟩ := h.txn
  exact ⟨⟨x, ht.trans hx, (hdb hx).trans hbase, hwrites⟩, h.view⟩

theorem Viewing.live (h : Viewing s t base ws m) (hl : s.live t = some x) :
    s.database x.seen = base ∧ x.writes = ws := by
  obtain ⟨y, hy, hbase, hwrites⟩ := h.txn
  rw [(live_iff.mp hl).1] at hy
  cases hy
  exact ⟨hbase, hwrites⟩

section Answers
variable (h : Inv s) (hl : s.live t = some x) (hview : Viewing s t base ws m)
include h hl hview

/-- A write goes to the map, or it is refused. -/
theorem Viewing.write {c : MvccCall} {k : Bytes} {value : Slice} {m' : Contents}
    (hop : c.op (some t) = some (writeOp t k value))
    (hnext : ∀ r, c.next (some t) s.begins r = some t)
    (hm : ∀ {db}, Holding db m → Holding (Function.update db k value) m') :
    serve n c (s, some t) = (c.answer (.error writeConflict), (s, some t)) ∨
      ∃ s', serve n c (s, some t) = (c.answer (.ok .unit), (s', some t)) ∧
        Viewing s' t base (ws ++ [(k, value)]) m' := by
  obtain ⟨rfl, rfl⟩ := hview.live hl
  have hx := (live_iff.mp hl).1
  by_cases hblocked : Blocked s.store x.state k
  · left
    rw [serve_eq hop (step_conflict (n := n) h.encoded hl hblocked value), hnext]
  · right
    have hstep := step_write (n := n) h.encoded hl hblocked value
    obtain ⟨a, -, heffect⟩ := op_effect h.encoded (by cases value <;> simp [writeOp]) hstep
    have hdb := heffect.database h hx
    have htxns := wrote_txns hx (written n x.state.version k value s.store) k value
    refine ⟨_, ?_, ⟨{ x with writes := x.writes ++ [(k, value)] }, ?_, hdb, rfl⟩, ?_⟩
    · rw [serve_eq hop hstep, hnext]
    · rw [htxns, Function.update_self]
    · simpa [applyWrites] using hm hview.view

/-- On the data a transaction is answered as the map answers, unless one of its
writes is refused. -/
theorem Viewing.answers (hb : s.begins < 2 ^ 64 - 1) {c : MvccCall} (hc : onData c) :
    (∃ s', serve n c (s, some t) = ((direct c m).1, (s', some t)) ∧
        Viewing s' t base (ws ++ callWrites c) (direct c m).2) ∨
      refused c (serve n c (s, some t)).1 ∧ (serve n c (s, some t)).2 = (s, some t) := by
  have hreader : Reader s (some t) m.find? := by
    obtain ⟨rfl, rfl⟩ := hview.live hl
    exact ⟨h, hb, t, x, rfl, hl, funext hview.view⟩
  have hsame : Viewing s t base (ws ++ []) m := by
    rw [List.append_nil]
    exact hview
  cases c with
  | begin | commit | rollback => exact hc.elim
  | get key => exact .inl ⟨s, hreader.get key, hsame⟩
  | scanPrefix start => exact .inl ⟨s, hreader.scan_under (fun _ => rfl) start, hsame⟩
  | set key value =>
    rcases hview.write (n := n) (c := .set key value) h hl rfl (fun _ => rfl)
      (fun hdb => hdb.write key value) with heq | hdone
    · rw [heq]
      exact .inr ⟨⟨trivial, rfl⟩, rfl⟩
    · exact .inl hdone
  | delete key =>
    rcases hview.write (n := n) (c := .delete key) h hl rfl (fun _ => rfl)
      (fun hdb => hdb.erase key) with heq | hdone
    · rw [heq]
      exact .inr ⟨⟨trivial, rfl⟩, rfl⟩
    · exact .inl hdone

/-- The end of a transaction changes neither its snapshot nor its writes. -/
theorem Viewing.ended {c : MvccCall} {o : Op} {status : Status} {store : Store}
    (hop : c.op (some t) = some o) (hbegin : o ≠ .begin)
    (hnext : ∀ r, c.next (some t) s.begins r = some t)
    (hstep : s.step n (.op o) = some (s.record o (.ok .unit) store, some (.ok .unit)))
    (htxns : (s.record o (.ok .unit) store).txns =
      Function.update s.txns t (some { x with status })) :
    ∃ s', serve n c (s, some t) = (c.answer (.ok .unit), (s', some t)) ∧
      Viewing s' t base ws m := by
  obtain ⟨rfl, rfl⟩ := hview.live hl
  obtain ⟨a, -, heffect⟩ := op_effect h.encoded (fun ho => absurd ho hbegin) hstep
  have hdb := heffect.database h (live_iff.mp hl).1
  refine ⟨_, ?_, ⟨{ x with status }, ?_, hdb, rfl⟩, hview.view⟩
  · rw [serve_eq hop hstep, hnext]
  · rw [htxns, Function.update_self]

theorem Viewing.commit :
    ∃ s', serve n .commit (s, some t) = (.ok (), (s', some t)) ∧ Viewing s' t base ws m := by
  obtain ⟨ks, -, hrun, -⟩ := commit_spec (n := n) h.encoded x.state
  exact hview.ended h hl rfl Op.noConfusion (fun _ => rfl) (step_op (program_commit hl) hrun)
    (record_commit_txns (live_iff.mp hl).1 _)

theorem Viewing.rollback :
    ∃ s', serve n .rollback (s, some t) = (.ok (), (s', some t)) ∧ Viewing s' t base ws m := by
  obtain ⟨ks, -, hrun, -⟩ := rollback_spec (n := n) h.encoded x.state
  exact hview.ended h hl rfl Op.noConfusion (fun _ => rfl) (step_op (program_rollback hl) hrun)
    (record_rollback_txns (live_iff.mp hl).1 _)

end Answers

/-- A transaction begins with the committed map. -/
theorem serve_begin (h : Inv s) (hb : s.begins < 2 ^ 64 - 1)
    (hm : Holding (s.database s.commits) m) : ∃ s', serve n .begin (s, none) =
      (.ok (), (s', some s.begins)) ∧ Viewing s' s.begins (s.database s.commits) [] m := by
  obtain ⟨next, hnext, -⟩ := h.counter hb
  obtain ⟨active, hactive, hstep⟩ := step_begin (n := n) h.encoded hnext
  obtain ⟨a, -, heffect⟩ := op_effect h.encoded (fun _ => ⟨next, hnext⟩) hstep
  refine ⟨_, serve_eq rfl hstep, ⟨⟨⟨next, active⟩, .live, [], s.commits⟩, ?_,
    heffect.committed h, rfl⟩, hm⟩
  exact Function.update_self _ _ _

/-- On the map `p` has come from `m₀` to `m` and has written `ws`, and `rest` is
left of it. -/
structure Midway (p : KvM ResultSet) (m₀ : Contents) (rest : KvM ResultSet)
    (ws : List (Bytes × Slice)) (m : Contents) : Prop where
  run : rest.run direct m = p.run direct m₀
  writes : traceWrites (p.trace direct m₀) = ws ++ traceWrites (rest.trace direct m)

/-- What is left of an execution of `p` whose transaction began with `base`, has
written `ws` and sees `m`: it goes on as `p` does alone on the map, or it has
met a conflict. -/
structure Follows (p rest : KvM ResultSet) (base : Db) (ws : List (Bytes × Slice)) (m : Contents) :
    Prop where
  meets : rest.Meets refused Refused
  course : (∃ m₀, Holding base m₀ ∧ Midway p m₀ rest ws m) ∨ Refused rest

section Course
variable {p : KvM ResultSet} {c : MvccCall} {next : MvccRet c → KvM ResultSet}

theorem Midway.answered {m₀ : Contents} (h : Midway p m₀ (.call c next) ws m) :
    Midway p m₀ (next (direct c m).1) (ws ++ callWrites c) (direct c m).2 := by
  refine ⟨h.run, ?_⟩
  rw [h.writes, Prog.trace_call, traceWrites_cons, List.append_assoc]

/-- A call that was not refused is answered as on the map. -/
theorem Follows.answered (h : Follows p (.call c next) base ws m) (hc : onData c) :
    Follows p (next (direct c m).1) base (ws ++ callWrites c) (direct c m).2 := by
  refine ⟨h.meets.2 _, ?_⟩
  rcases h.course with ⟨m₀, hm₀, hmidway⟩ | ⟨f, ⟨e, rfl, -⟩, hrest | hrest⟩
  · exact .inl ⟨m₀, hm₀, hmidway.answered⟩
  · cases hrest
    exact hc.elim
  · cases hrest

theorem Follows.refused {r : MvccRet c} (h : Follows p (.call c next) base ws m)
    (hr : refused c r) : Follows p (next r) base ws m :=
  ⟨h.meets.2 r, .inr (h.meets.1 r hr)⟩

theorem Follows.commit {next : MvccRet .commit → KvM ResultSet}
    (h : Follows p (.call .commit next) base ws m) : Follows p (next (.ok ())) base ws m := by
  refine ⟨h.meets.2 _, ?_⟩
  rcases h.course with ⟨m₀, hm₀, hmidway⟩ | ⟨f, ⟨e, rfl, -⟩, hrest | hrest⟩
  · exact .inl ⟨m₀, hm₀, hmidway.run, hmidway.writes⟩
  · cases hrest
  · cases hrest

theorem Follows.rollback {next : MvccRet .rollback → KvM ResultSet}
    (h : Follows p (.call .rollback next) base ws m) : Follows p (next (.ok ())) base ws m := by
  refine ⟨h.meets.2 _, ?_⟩
  rcases h.course with ⟨m₀, hm₀, hmidway⟩ | ⟨f, ⟨e, rfl, he⟩, hrest | hrest⟩
  · exact .inl ⟨m₀, hm₀, hmidway.run, hmidway.writes⟩
  · cases hrest
    exact .inr ⟨_, ⟨e, rfl, he⟩, .inr rfl⟩
  · cases hrest

end Course

/-- Execution `j` and the statement it executes. -/
def Tracks (setting : Setting) (s : Sys) (j : Nat) (e : Execution) : Prop :=
  (e.handle = none → e.rest = Session.execute setting.codec (setting.walks.order j) e.sql) ∧
    ∀ t, e.handle = some t → ∃ base ws m, Viewing s t base ws m ∧
      Follows (Session.execute setting.codec (setting.walks.order j) e.sql) e.rest base ws m

theorem Tracks.frame {j : Nat} {e : Execution} (h : Tracks setting s j e)
    (htxns : ∀ t, e.handle = some t → s'.txns t = s.txns t)
    (hdb : ∀ {t x}, s.txns t = some x → s'.database x.seen = s.database x.seen) :
    Tracks setting s' j e := by
  refine ⟨h.1, fun t ht => ?_⟩
  obtain ⟨base, ws, m, hview, hfollows⟩ := h.2 t ht
  exact ⟨base, ws, m, hview.frame (htxns t ht) hdb, hfollows⟩

/-- A call of an execution that keeps to the phases. -/
theorem Tracks.call {j : Nat} {sql : Bytes} {handle : Option Nat} {c : MvccCall}
    {next : MvccRet c → KvM ResultSet} {phase : Phase} (h : Inv s) (hb : s.begins < 2 ^ 64 - 1)
    (hstands : Stands (fun _ _ => True) s handle phase)
    (hwp : (Prog.call c next : KvM ResultSet).wp freeRule Ended phase)
    (htracks : Tracks setting s j ⟨sql, handle, .call c next⟩) :
    Tracks setting (serve n c (s, handle)).2.1 j
      ⟨sql, (serve n c (s, handle)).2.2, next (serve n c (s, handle)).1⟩ := by
  have hfound : ∀ {t s' r base ws m}, serve n c (s, handle) = (r, (s', some t)) →
      Viewing s' t base ws m →
      Follows (Session.execute setting.codec (setting.walks.order j) sql) (next r) base ws m →
      Tracks setting (serve n c (s, handle)).2.1 j
        ⟨sql, (serve n c (s, handle)).2.2, next (serve n c (s, handle)).1⟩ := by
    intro t s' r base ws m heq hview hfollows
    rw [heq]
    refine ⟨fun hnone => (nomatch hnone), fun u hu => ?_⟩
    cases hu
    exact ⟨base, ws, m, hview, hfollows⟩
  cases phase with
  | committed | rolledBack => cases c <;> exact hwp.elim
  | idle =>
    cases hstands
    have hrest := htracks.1 rfl
    cases c with
    | begin =>
      obtain ⟨m, hm⟩ := holding_database s s.commits
      obtain ⟨s', hserve, hview⟩ := serve_begin (n := n) h hb hm
      have hmeets := session_meets setting.codec (setting.walks.order j) sql
      rw [← hrest] at hmeets
      refine hfound hserve hview ⟨hmeets.2 _, .inl ⟨m, hm, ?_, ?_⟩⟩
      · rw [← hrest]
        rfl
      · rw [← hrest]
        rfl
    | _ => exact hwp.elim
  | running base view =>
    obtain ⟨x, hown, -, -⟩ := hstands
    obtain ⟨t, rfl, hx⟩ := hown.entry
    have hl : s.live t = some x := live_iff.mpr ⟨hx, hown.status⟩
    obtain ⟨base, ws, m, hview, hfollows⟩ := htracks.2 t rfl
    have hdata : onData c → Tracks setting (serve n c (s, some t)).2.1 j
        ⟨sql, (serve n c (s, some t)).2.2, next (serve n c (s, some t)).1⟩ := by
      intro hc
      rcases hview.answers (n := n) h hl hb hc with ⟨s', hserve, hview'⟩ | ⟨hr, hsame⟩
      · exact hfound hserve hview' (hfollows.answered hc)
      · exact hfound (Prod.ext rfl hsame) hview (hfollows.refused hr)
    cases c with
    | begin => exact hwp.elim
    | commit =>
      obtain ⟨s', hserve, hview'⟩ := hview.commit (n := n) h hl
      exact hfound hserve hview' hfollows.commit
    | rollback =>
      obtain ⟨s', hserve, hview'⟩ := hview.rollback (n := n) h hl
      exact hfound hserve hview' hfollows.rollback
    | _ => exact hdata trivial

/-- Every execution of every interleaving follows its statement. -/
theorem reaches_tracks (h : setting.Reaches w) (hb : w.sys.begins < 2 ^ 64 - 1) {j : Nat}
    {e : Execution} (he : w.executions j = some e) : Tracks setting w.sys j e := by
  obtain ⟨events, hrun⟩ := h
  refine (sound_induction (P :=
    fun m => ∀ {j e}, m.executions j = some e → Tracks setting m.sys j e)
    _ _ (fun _ _ _ => trivial)
      (fun i sql => session_phases setting.codec (setting.walks.perm i) sql)
    ?_ sound_init (fun h => nomatch h) hrun hb).2 he
  intro m m' hm hold heffect hb i e he
  cases heffect with
  | start sql =>
    change Function.update _ _ _ _ = _ at he
    rw [Function.update_apply] at he
    split_ifs at he with hi
    · cases he
      exact ⟨fun _ => by rw [hi], fun t ht => nomatch ht⟩
    · exact hold he
  | @advance j sql handle c next pending =>
    obtain ⟨phase, hstands, hwp⟩ := hm.executions pending
    have hle := serve_begins_le setting.nil c m.sys handle
    have hlt : m.sys.begins < 2 ^ 64 - 1 := lt_of_le_of_lt hle hb
    change Function.update _ _ _ _ = _ at he
    rw [Function.update_apply] at he
    split_ifs at he with hi
    · cases he
      rw [hi]
      exact (hold pending).call hm.sys hlt hstands hwp
    · have hserved := serve_sound (n := setting.nil) hm.sys hlt (fun _ => trivial) hstands hwp
      obtain ⟨o, r, hstep⟩ := hserved.step
      have hlast : (serve setting.nil c (m.sys, handle)).2.1.begins < 2 ^ 64 :=
        lt_trans hb (by decide)
      obtain ⟨a, -, heffect⟩ := op_effect hm.sys.encoded (hm.sys.counts hstep hlast) hstep
      refine (hold he).frame (fun t ht => hserved.others t ?_)
        (fun hx => heffect.database hm.sys hx)
      -- the other executions have other transactions
      rcases hserved.handle with ⟨u, rfl, hu⟩ | ⟨-, hu⟩
      · rw [hu]
        exact fun heq => hi (hm.distinct he pending ht (by rw [heq]))
      · rw [hu]
        intro heq
        obtain ⟨base, ws, view, hview, -⟩ := (hold he).2 t ht
        obtain ⟨x, hx, -⟩ := hview.txn
        have hbound := hm.sys.bound hx
        cases heq
        omega
  | crash died => cases he

/-- A statement whose calls go directly to the map. -/
theorem run_serially (setting : Setting) (i : Nat) (sql : Bytes) (m : Contents) :
    ((Session.execute setting.codec (setting.walks.order i) sql).run direct m).1 =
        (serially setting i sql m).1 ∧
      ∀ result, (serially setting i sql m).1 = .ok result →
        ((Session.execute setting.codec (setting.walks.order i) sql).run direct m).2 =
          (serially setting i sql m).2 := by
  unfold Session.execute serially
  cases Session.plan sql with
  | error f => exact ⟨rfl, fun _ _ => rfl⟩
  | ok node =>
    have hbody := Prog.run_attempt direct (ε := Fault)
      ((Sql.execute (setting.walks.order i) node).through
        fun c => (KVTransaction.call setting.codec c).attempt) m
    rw [Prog.run_through (h := direct)] at hbody
    have hrun : (Session.transact setting.codec (setting.walks.order i) node).run direct m =
        (Session.finish
          ((Sql.execute (setting.walks.order i) node).run (tables setting.codec) m).1).run
          direct ((Sql.execute (setting.walks.order i) node).run (tables setting.codec) m).2 :=
      Prog.run_bind_ok direct hbody Session.finish
    simp only [Prog.bind_eq, Prog.ofExcept_ok, Prog.bind_done, hrun]
    generalize (Sql.execute (setting.walks.order i) node).run (tables setting.codec) m = r
    obtain ⟨result, m'⟩ := r
    cases result with
    | ok a => exact ⟨rfl, fun _ _ => rfl⟩
    | error f =>
      cases f with
      | error e => exact ⟨rfl, nofun⟩
      | panic message => exact ⟨rfl, nofun⟩

theorem result_rest {e : Execution} {r : Outcome ResultSet} (h : e.result = some r) :
    e.rest = .ofExcept r := by
  unfold Execution.result at h
  split at h <;> cases h <;> assumption

/-- A refused execution that has returned has returned the conflict. -/
theorem Refused.conflict {r : Outcome ResultSet} (h : Refused (.ofExcept r)) :
    ∃ f, r = .error f ∧ Conflict f := by
  obtain ⟨f, ⟨e, rfl, he⟩, hrest | hrest⟩ := h
  · cases r <;> cases hrest
  · cases r with
    | ok a => cases hrest
    | error f =>
      cases hrest
      exact ⟨_, rfl, Conflict.wrap ⟨e, rfl, he⟩ _ _⟩

/-- How a statement that has returned is related to the map that its transaction
began with. After a panic the transaction stays open. -/
inductive Outcomes (setting : Setting) (j : Nat) (sql : Bytes) (s : Sys) (t : Nat) (x : Txn) :
    Outcome ResultSet → Prop where
  | committed {result : ResultSet}
      (alone : serially setting j sql (committedMap s x.seen) =
        (.ok result, overwritten (committedMap s x.seen) x.writes))
      (writes : traceWrites
        ((Session.execute setting.codec (setting.walks.order j) sql).trace direct
        (committedMap s x.seen)) = x.writes)
      (order : t ∈ s.commits) : Outcomes setting j sql s t x (.ok result)
  | failed {e : Error}
      (cause : (serially setting j sql (committedMap s x.seen)).1 = .error (.error e) ∨ Names e)
      (status : x.status = .rolledBack) : Outcomes setting j sql s t x (.error (.error e))
  | panicked {message : String}
      (alone : (serially setting j sql (committedMap s x.seen)).1 = .error (.panic message))
      (status : x.status = .live) : Outcomes setting j sql s t x (.error (.panic message))

def endStatus : Outcome ResultSet → Status
  | .ok _ => .committed
  | .error (.error _) => .rolledBack
  | .error (.panic _) => .live

/-- The status of the transaction of an execution that has returned. -/
theorem endStatus_of_result {r : Outcome ResultSet} {phase : Phase}
    (hwp : (Prog.ofExcept r : KvM ResultSet).wp freeRule Ended phase)
    (hstands : Stands (fun _ _ => True) s (some t) phase) (hx : s.txns t = some x) :
    x.status = endStatus r := by
  have hown : ∀ {status y}, Owns (fun _ _ => True) s (some t) status y → x.status = status := by
    intro status y hown
    have hy := hown.txn
    rw [hx] at hy
    cases hy
    exact hown.status
  cases phase with
  | idle => cases hstands
  | running base view =>
    obtain ⟨y, hy, -, -⟩ := hstands
    rcases r with f | result
    · cases f with
      | error e => exact hwp.elim
      | panic message => exact hown hy
    · exact hwp.elim
  | committed =>
    obtain ⟨y, hy⟩ := hstands
    rcases r with f | result
    · cases f <;> exact hwp.elim
    · exact hown hy
  | rolledBack =>
    obtain ⟨y, hy⟩ := hstands
    rcases r with f | result
    · cases f with
      | error e => exact hown hy
      | panic message => exact hwp.elim
    · exact hwp.elim

/-- An execution that has returned from its transaction has run alone on its
snapshot, and has written what the statement writes there; or it has met a
conflict. -/
theorem reaches_returned (h : setting.Reaches w) (hb : w.sys.begins < 2 ^ 64 - 1) {j : Nat}
    {e : Execution} {r : Outcome ResultSet} (he : w.executions j = some e) (hr : e.result = some r)
    (ht : e.handle = some t) : ∃ x, w.sys.txns t = some x ∧ x.status = endStatus r ∧
      ((Session.execute setting.codec (setting.walks.order j) e.sql).run direct
          (committedMap w.sys x.seen) = (r, overwritten (committedMap w.sys x.seen) x.writes) ∧
        traceWrites ((Session.execute setting.codec (setting.walks.order j) e.sql).trace direct
          (committedMap w.sys x.seen)) = x.writes ∨
        ∃ f, r = .error f ∧ Conflict f) := by
  have hrest := result_rest hr
  obtain ⟨base, ws, m, hview, hfollows⟩ := (reaches_tracks h hb he).2 t ht
  obtain ⟨phase, hstands, hwp⟩ := (reaches_sound h hb).executions he
  obtain ⟨x, hx, rfl, rfl⟩ := hview.txn
  rw [ht] at hstands
  rw [hrest] at hwp
  refine ⟨x, hx, endStatus_of_result hwp hstands hx, ?_⟩
  rcases hfollows.course with ⟨m₀, hm₀, hmidway⟩ | hrefused
  · left
    have hsnapshot := holding_committed w.sys x.seen
    rw [hsnapshot.unique hm₀, (holding_overwritten hm₀ x.writes).unique hview.view]
    have hrun := hmidway.run
    have hwrites := hmidway.writes
    rw [hrest, Prog.run_ofExcept] at hrun
    rw [hrest, Prog.trace_ofExcept, traceWrites_nil, List.append_nil] at hwrites
    exact ⟨hrun.symm, hwrites⟩
  · right
    rw [hrest] at hrefused
    exact hrefused.conflict

/-- An execution that has returned without a transaction had no plan. -/
theorem reaches_unplanned (h : setting.Reaches w) (hb : w.sys.begins < 2 ^ 64 - 1) {j : Nat}
    {e : Execution} {r : Outcome ResultSet} (he : w.executions j = some e) (hr : e.result = some r)
    (hnone : e.handle = none) : ∃ f, Session.plan e.sql = .error f ∧ r = .error f := by
  have hrest := result_rest hr
  rw [(reaches_tracks h hb he).1 hnone, Session.execute] at hrest
  cases hplan : Session.plan e.sql with
  | error f =>
    rw [hplan] at hrest
    cases r with
    | ok result => cases hrest
    | error f' =>
      cases hrest
      exact ⟨f, rfl, rfl⟩
  | ok node =>
    rw [hplan] at hrest
    cases r <;> cases hrest

/-- Snapshot isolation of statements. Whatever else runs at the same time and
whenever a process dies, a call of `Session.Execute` that has ended has the
result that the statement has alone on the database its transaction began with,
and has committed exactly what it writes there; or a write conflict has made it
fail. -/
theorem statement_on_snapshot (h : setting.Reaches w) (hb : w.sys.begins < 2 ^ 64 - 1) {j : Nat}
    {e : Execution} {r : Outcome ResultSet} (he : w.executions j = some e)
    (hr : e.result = some r) :
    (e.handle = none ∧ ∃ f, Session.plan e.sql = .error f ∧ r = .error f) ∨
      ∃ t x, e.handle = some t ∧ w.sys.txns t = some x ∧ x.seen <+: w.sys.commits ∧
        Outcomes setting j e.sql w.sys t x r := by
  have hinv := reaches_inv h hb
  cases hhandle : e.handle with
  | none => exact .inl ⟨rfl, reaches_unplanned h hb he hr hhandle⟩
  | some t =>
    obtain ⟨x, hx, hstatus, hended⟩ := reaches_returned h hb he hr hhandle
    refine .inr ⟨t, x, rfl, hx, hinv.seen hx, ?_⟩
    rcases hended with ⟨hrun, hwrites⟩ | ⟨f, rfl, e, rfl, hnames⟩
    · obtain ⟨hresult, hleft⟩ := run_serially setting j e.sql (committedMap w.sys x.seen)
      rw [hrun] at hresult hleft
      rcases r with f | result
      · cases f with
        | error e => exact .failed (.inl hresult.symm) hstatus
        | panic message => exact .panicked hresult.symm hstatus
      · refine .committed (Prod.ext hresult.symm (hleft result hresult.symm).symm) hwrites ?_
        exact hinv.committed.mpr ⟨x, hx, hstatus⟩
    · exact .failed (.inr hnames) hstatus

def readAcross : List Event :=
  oneRow ++ [.start (ascii "SELECT * FROM t;"), .advance 2] ++
    executed 3 "INSERT INTO t VALUES (2);" 6 ++ List.replicate 3 (.advance 2)

/-- The SELECT returns the row that was there when it began. -/
theorem readAcross_run : ∃ w e x, serialSetting.run .init readAcross = some w ∧
    w.executions 2 = some e ∧ w.sys.txns 2 = some x ∧ e.sql = ascii "SELECT * FROM t;" ∧
    e.handle = some 2 ∧ e.result = some (.ok (.rows [ascii "a"] [rowOfInteger ⟨1, by decide⟩])) ∧
    x.seen = [0, 1] ∧ w.sys.commits = [0, 1, 3, 2] ∧ w.sys.begins = 4 := by
  have hobserve : (serialSetting.run .init readAcross).bind (fun w =>
      (w.executions 2).bind fun e => (w.sys.txns 2).map fun x =>
        (e.result, decide (e.sql = ascii "SELECT * FROM t;" ∧ e.handle = some 2 ∧ x.seen = [0, 1] ∧
          w.sys.commits = [0, 1, 3, 2] ∧ w.sys.begins = 4))) =
      some (some (.ok (.rows [ascii "a"] [rowOfInteger ⟨1, by decide⟩])), true) := by decide +kernel
  obtain ⟨w, hrun, hw⟩ := Option.bind_eq_some_iff.mp hobserve
  obtain ⟨e, he, hw⟩ := Option.bind_eq_some_iff.mp hw
  obtain ⟨x, hx, hw⟩ := Option.map_eq_some_iff.mp hw
  simp only [Prod.mk.injEq, decide_eq_true_eq] at hw
  obtain ⟨hresult, hsql, hhandle, hseen, hcommits, hbegins⟩ := hw
  exact ⟨w, e, x, hrun, he, hx, hsql, hhandle, hresult, hseen, hcommits, hbegins⟩

theorem statement_on_snapshot_select : ∃ w e x, serialSetting.run .init readAcross = some w ∧
    w.executions 2 = some e ∧ w.sys.commits = [0, 1, 3, 2] ∧ w.sys.txns 2 = some x ∧
    x.seen = [0, 1] ∧ Outcomes serialSetting 2 (ascii "SELECT * FROM t;") w.sys 2 x
      (.ok (.rows [ascii "a"] [rowOfInteger ⟨1, by decide⟩])) := by
  obtain ⟨w, e, x, hrun, he, hx, hsql, hhandle, hresult, hseen, hcommits, hbegins⟩ := readAcross_run
  rcases statement_on_snapshot ⟨_, hrun⟩ (by omega) he hresult with
    ⟨hnone, -⟩ | ⟨t, y, ht, hy, -, houtcome⟩
  · rw [hhandle] at hnone
    cases hnone
  · rw [hhandle] at ht
    cases ht
    rw [hx] at hy
    cases hy
    rw [hsql] at houtcome
    exact ⟨w, e, x, hrun, he, hcommits, hx, hseen, houtcome⟩

end SpaceDB.Proofs
