import SpaceDB.Proofs.Faults
import SpaceDB.Proofs.Reads
import SpaceDB.Storage.Runs

namespace SpaceDB.Proofs
open Lib Storage

variable {n : NilValue} {s s' : Sys} {t u : Nat} {x y : Txn}

theorem live_iff {t : Nat} {x : Txn} : s.live t = some x ↔ s.txns t = some x ∧
    x.status = .live := by
  unfold Sys.live
  rw [Option.filter_eq_some_iff, decide_eq_true_iff]

def begun (n : NilValue) (next : Version) (store : Store) : Store :=
  (store.insert (MvccKey.nextVersion).encode (some (encodeVersion (next + 1)))).insert
    (MvccKey.txnActive next).encode (n.store none)

/-- Set and Delete as one operation; a Delete writes nil. -/
def writeOp (t : Nat) (k : Bytes) : Slice → Op
  | some v => .set t k v
  | none => .delete t k

def handle : Op → Option Nat
  | .get t _ | .scanPrefix t _ | .set t _ _ | .delete t _ | .commit t | .rollback t => some t
  | .begin => none

theorem handle_writeOp (t : Nat) (k : Bytes) (value : Slice) :
    handle (writeOp t k value) = some t := by
  cases value <;> rfl

def encodeSlice (value : Slice) : Bytes := encodeVersionedValue (value.getD []) value.isNone

theorem decode_encodeSlice (value : Slice) :
    decodeVersionedValue (some (encodeSlice value)) = .ok value := by
  cases value <;> rfl

def written (n : NilValue) (v : Version) (k : Bytes) (value : Slice) (store : Store) : Store :=
  (store.insert (MvccKey.txnWrite v k).encode (n.store none)).insert
    (MvccKey.version k v).encode (some (encodeSlice value))

@[simp] theorem recordAt_begun (next : Version) (store : Store) (key : MvccKey) :
    recordAt (begun n next store) key =
      if key = .txnActive next then some (n.store none)
      else if key = .nextVersion then some (some (encodeVersion (next + 1)))
      else recordAt store key := by
  simp only [begun, recordAt_insert]

@[simp] theorem recordAt_written (v : Version) (k : Bytes) (value : Slice) (store : Store)
    (key : MvccKey) :
    recordAt (written n v k value store) key =
      if key = .version k v then some (some (encodeSlice value))
      else if key = .txnWrite v k then some (n.store none)
      else recordAt store key := by
  simp only [written, recordAt_insert]

theorem Encoded.begun {store : Store} (h : Encoded store) (next : Version) :
    Encoded (begun n next store) := (h.insert _ _).insert _ _

theorem Encoded.written {store : Store} (h : Encoded store) (v : Version) (k : Bytes)
    (value : Slice) : Encoded (written n v k value store) := (h.insert _ _).insert _ _

theorem mem_commitKeys {v : Version} {ks : List Bytes} {key : MvccKey} :
    key ∈ commitKeys v ks ↔ (∃ k ∈ ks, key = .txnWrite v k) ∨ key = .txnActive v := by
  simp [commitKeys, eq_comm]

theorem mem_rollbackKeys {v : Version} {ks : List Bytes} {key : MvccKey} :
    key ∈ rollbackKeys v ks ↔
      (∃ k ∈ ks, key = .txnWrite v k ∨ key = .version k v) ∨ key = .txnActive v := by
  simp [rollbackKeys]

def opened (n : NilValue) (s : Sys) (st : TransactionState) : Sys :=
  { s with
    store := begun n st.version s.store, begins := s.begins + 1,
    txns := Function.update s.txns s.begins (some ⟨st, .live, [], s.commits⟩) }

@[simp] theorem opened_store (s : Sys) (st : TransactionState) :
    (opened n s st).store = begun n st.version s.store := rfl

theorem opened_txns {st : TransactionState} {u : Nat} {y : Txn}
    (hy : (opened n s st).txns u = some y) :
    s.txns u = some y ∨ u = s.begins ∧ y = ⟨st, .live, [], s.commits⟩ := by
  change Function.update _ _ _ _ = _ at hy
  rw [Function.update_apply] at hy
  by_cases hu : u = s.begins
  · rw [if_pos hu] at hy
    exact .inr ⟨hu, (Option.some.inj hy).symm⟩
  · rw [if_neg hu] at hy
    exact .inl hy

theorem wrote_txns (hx : s.txns t = some x) (store : Store) (k : Bytes) (value : Slice) :
    (({ s with store := store } : Sys).wrote t k value).txns =
      Function.update s.txns t (some { x with writes := x.writes ++ [(k, value)] }) := by
  simp [Sys.wrote, Sys.update, hx]

theorem record_commit_txns (hx : s.txns t = some x) (store : Store) :
    (s.record (.commit t) (.ok .unit) store).txns =
      Function.update s.txns t (some { x with status := .committed }) := by
  simp [Sys.record, Sys.update, hx]

theorem record_rollback_txns (hx : s.txns t = some x) (store : Store) :
    (s.record (.rollback t) (.ok .unit) store).txns =
      Function.update s.txns t (some { x with status := .rolledBack }) := by
  simp [Sys.record, Sys.update, hx]

theorem lose_txns {y' : Txn} (hy' : s.lose.txns u = some y') :
    ∃ y, s.txns u = some y ∧ y' = (if y.status = .live then { y with status := .lost } else y) := by
  obtain ⟨y, hy, heq⟩ := Option.map_eq_some_iff.mp hy'
  exact ⟨y, hy, heq.symm⟩

/-- A handle that was live is lost in the system of the next process. -/
theorem lose_live (hl : s.live t = some x) :
    s.lose.txns t = some { x with status := .lost } := by
  obtain ⟨hx, hst⟩ := live_iff.mp hl
  change (s.txns t).map _ = _
  rw [hx, Option.map_some, if_pos hst]

inductive OpEffect (n : NilValue) (s : Sys) : Op → Sys → Except Error Answer → Prop where
  | begin {next : Version} {active : List Version} (counter : NextIs s.store next)
      (markers : ∀ v, v ∈ active ↔ (recordAt s.store (.txnActive v)).isSome) :
      OpEffect n s .begin (opened n s ⟨next, active⟩) (.ok (.handle ⟨next, active⟩))
  | get {t : Nat} {x : Txn} {k : Bytes} {r : Except Error Answer} (live : s.live t = some x) :
      OpEffect n s (.get t k) s r
  | scanPrefix {t : Nat} {x : Txn} {p : Bytes} {r : Except Error Answer}
      (live : s.live t = some x) : OpEffect n s (.scanPrefix t p) s r
  | conflict {t : Nat} {x : Txn} {k : Bytes} {value : Slice} (live : s.live t = some x)
      (blocked : Blocked s.store x.state k) :
      OpEffect n s (writeOp t k value) s (.error writeConflict)
  | write {t : Nat} {x : Txn} {k : Bytes} {value : Slice} (live : s.live t = some x)
      (free : ¬ Blocked s.store x.state k) :
      OpEffect n s (writeOp t k value)
        (({ s with store := written n x.state.version k value s.store } : Sys).wrote t k value)
        (.ok .unit)
  | commit {t : Nat} {x : Txn} {ks : List Bytes} (live : s.live t = some x)
      (writes : WriteSet s.store x.state.version ks) :
      OpEffect n s (.commit t)
        (s.record (.commit t) (.ok .unit) (eraseAll (commitKeys x.state.version ks) s.store))
        (.ok .unit)
  | rollback {t : Nat} {x : Txn} {ks : List Bytes} (live : s.live t = some x)
      (writes : WriteSet s.store x.state.version ks) :
      OpEffect n s (.rollback t)
        (s.record (.rollback t) (.ok .unit) (eraseAll (rollbackKeys x.state.version ks) s.store))
        (.ok .unit)

/-- The program of a write, with its value as a slice. -/
theorem program_write {t : Nat} {x : Txn} (hl : s.live t = some x) (k : Bytes) (value : Slice) :
    s.program (writeOp t k value) =
      some ((MVCCTransaction.write x.state k (value.getD []) value.isNone).bind
        (fun _ => .done .unit)) := by
  cases value with
  | none => simp [writeOp, Sys.program, hl, MVCCTransaction.delete]
  | some v => simp [writeOp, Sys.program, hl, MVCCTransaction.set]

theorem program_commit {t : Nat} {x : Txn} (hl : s.live t = some x) :
    s.program (.commit t) = some
      ((MVCCTransaction.commit x.state).bind (fun _ => .done .unit)) := by
  simp [Sys.program, hl]

theorem program_rollback {t : Nat} {x : Txn} (hl : s.live t = some x) :
    s.program (.rollback t) =
      some ((MVCCTransaction.rollback x.state).bind (fun _ => .done .unit)) := by
  simp [Sys.program, hl]

theorem program_get {t : Nat} {x : Txn} (hl : s.live t = some x) (k : Bytes) :
    s.program (.get t k) =
      some ((MVCCTransaction.get x.state k).bind (fun v => .done (.value v))) := by
  simp [Sys.program, hl]

theorem program_scanPrefix {t : Nat} {x : Txn} (hl : s.live t = some x) (p : Bytes) :
    s.program (.scanPrefix t p) =
      some ((MVCCTransaction.scanPrefix x.state p).bind (fun es => .done (.entries es))) := by
  simp [Sys.program, hl]

theorem program_begin (s : Sys) :
    s.program .begin = some (MVCC.begin.bind (fun st => .done (.handle st))) := rfl

theorem program_none {o : Op} (h : s.program o = none) (st : Step)
    (hst : st = .op o ∨ (∃ calls, st = .crash o calls) ∨ ∃ faults, st = .faulty o faults) :
    s.step n st = none := by
  rcases hst with rfl | ⟨calls, rfl⟩ | ⟨faults, rfl⟩ <;> simp [Sys.step, h]

/-- A step through an operation whose program is `p`. -/
theorem step_op {o : Op} {p : EngineProg α} {f : α → Answer} {r : Except Error α} {store : Store}
    (hp : s.program o = some (p.bind (fun a => .done (f a))))
    (hr : p.run (orderedEngine n) s.store = (r, store)) :
    s.step n (.op o) = some (s.record o (r.map f) store, some (r.map f)) := by
  simp only [Sys.step, hp, Option.map_some, Prog.run_map, hr]

theorem step_begin {next : Version} (hs : Encoded s.store) (hn : NextIs s.store next) :
    ∃ active, (∀ v, v ∈ active ↔ (recordAt s.store (.txnActive v)).isSome) ∧
      s.step n (.op .begin) =
        some (opened n s ⟨next, active⟩, some (.ok (.handle ⟨next, active⟩))) := by
  obtain ⟨active, hactive, hrun, -⟩ := begin_spec (n := n) hs hn
  exact ⟨active, hactive, step_op (program_begin s) hrun⟩

theorem step_crash {o : Op} {p : EngineProg α} {f : α → Answer} (calls : Nat)
    (hp : s.program o = some (p.bind (fun a => .done (f a)))) :
    s.step n (.crash o calls) = some (s.crashed o (Prog.replay (orderedEngine n)
      ((p.trace (orderedEngine n) s.store).take calls) s.store), none) := by
  simp only [Sys.step, hp, Option.map_some, Prog.upTo_state, Prog.trace_map]

/-- The process that comes after has no handle. -/
theorem crash_live_none {o : Op} {calls : Nat} {r : Result}
    (h : s.step n (.crash o calls) = some (s', r)) (t : Nat) : s'.live t = none := by
  have hlose : ∀ m : Sys, m.lose.live t = none := by
    intro m
    by_contra hne
    obtain ⟨x, hl⟩ := Option.ne_none_iff_exists'.mp hne
    obtain ⟨hx, hst⟩ := live_iff.mp hl
    obtain ⟨y, -, rfl⟩ := lose_txns hx
    by_cases hlive : y.status = .live
    · rw [if_pos hlive] at hst
      cases hst
    · rw [if_neg hlive] at hst
      exact hlive hst
  obtain ⟨p, -, hp⟩ := Option.map_eq_some_iff.mp h
  cases hp
  cases o with
  | commit u =>
    simp only [Sys.crashed]
    split
    · split
      · exact hlose _
      · exact hlose _
    · exact hlose _
  | _ => exact hlose _

theorem get_trace (t : TransactionState) (k : Bytes) (s : Store) :
    (MVCCTransaction.get t k).trace (orderedEngine n) s =
      [.scanReverse (some (versionedKey k 0).encode)
        (some (versionedKey k (t.version + 1)).encode)] := by
  simp only [MVCCTransaction.get, Prog.perform, Prog.bind_eq, Prog.bind_call, Prog.bind_done,
    Prog.trace_call, Prog.trace_ofExcept]

theorem scanPrefix_trace (t : TransactionState) (p : Bytes) (s : Store) :
    (MVCCTransaction.scanPrefix t p).trace (orderedEngine n) s =
      [.scanPrefix (versionedKeyPrefix p)] := by
  simp only [MVCCTransaction.scanPrefix, Prog.perform, Prog.bind_eq, Prog.bind_call,
    Prog.bind_done, Prog.trace_call, Prog.pure_eq, Prog.trace_map, Prog.trace_ofExcept]

theorem get_state (t : TransactionState) (k : Bytes) (s : Store) :
    ∃ r, (MVCCTransaction.get t k).run (orderedEngine n) s = (r, s) := by
  refine ⟨_, Prod.ext rfl ?_⟩
  rw [Prog.run_state, get_trace]
  rfl

theorem scanPrefix_state (t : TransactionState) (p : Bytes) (s : Store) :
    ∃ r, (MVCCTransaction.scanPrefix t p).run (orderedEngine n) s = (r, s) := by
  refine ⟨_, Prod.ext rfl ?_⟩
  rw [Prog.run_state, scanPrefix_trace]
  rfl

theorem step_conflict {t : Nat} {x : Txn} {k : Bytes} (hs : Encoded s.store)
    (hl : s.live t = some x) (hb : Blocked s.store x.state k) (value : Slice) :
    s.step n (.op (writeOp t k value)) = some (s, some (.error writeConflict)) := by
  rw [step_op (program_write hl k value) (write_blocked hs hb _ _).1]
  cases value <;> rfl

theorem step_write {t : Nat} {x : Txn} {k : Bytes} (hs : Encoded s.store)
    (hl : s.live t = some x) (hb : ¬ Blocked s.store x.state k) (value : Slice) :
    s.step n (.op (writeOp t k value)) =
      some (({ s with store := written n x.state.version k value s.store } : Sys).wrote t k value,
        some (.ok .unit)) := by
  rw [step_op (program_write hl k value) (write_free hs hb _ _).1]
  cases value <;> rfl

/-- Set and Delete are refused, or they write. -/
theorem write_effect {t : Nat} {k : Bytes} (value : Slice) {r : Result} (hs : Encoded s.store)
    (h : s.step n (.op (writeOp t k value)) = some (s', r)) :
    ∃ a, r = some a ∧ OpEffect n s (writeOp t k value) s' a := by
  cases hl : s.live t with
  | none =>
    rw [program_none (by cases value <;> simp [writeOp, Sys.program, hl]) _ (.inl rfl)] at h
    cases h
  | some x =>
    by_cases hb : Blocked s.store x.state k
    · rw [step_conflict hs hl hb value] at h
      cases h
      exact ⟨_, rfl, .conflict hl hb⟩
    · rw [step_write hs hl hb value] at h
      cases h
      exact ⟨_, rfl, .write hl hb⟩

/-- Every operation that returns has one of these effects. -/
theorem op_effect {o : Op} {r : Result} (hs : Encoded s.store)
    (hn : o = .begin → ∃ next, NextIs s.store next) (h : s.step n (.op o) = some (s', r)) :
    ∃ a, r = some a ∧ OpEffect n s o s' a := by
  cases o with
  | begin =>
    obtain ⟨next, hnext⟩ := hn rfl
    obtain ⟨active, hactive, hstep⟩ := step_begin (n := n) hs hnext
    rw [hstep] at h
    cases h
    exact ⟨_, rfl, .begin hnext hactive⟩
  | set t k v => exact write_effect (some v) hs h
  | delete t k => exact write_effect none hs h
  | get t k =>
    cases hl : s.live t with
    | none => simp [Sys.step, Sys.program, hl] at h
    | some x =>
      obtain ⟨a, hrun⟩ := get_state (n := n) x.state k s.store
      rw [step_op (program_get hl k) hrun] at h
      cases h
      exact ⟨_, rfl, .get hl⟩
  | scanPrefix t p =>
    cases hl : s.live t with
    | none => simp [Sys.step, Sys.program, hl] at h
    | some x =>
      obtain ⟨a, hrun⟩ := scanPrefix_state (n := n) x.state p s.store
      rw [step_op (program_scanPrefix hl p) hrun] at h
      cases h
      exact ⟨_, rfl, .scanPrefix hl⟩
  | commit t =>
    cases hl : s.live t with
    | none => simp [Sys.step, Sys.program, hl] at h
    | some x =>
      obtain ⟨ks, hks, hrun, -⟩ := commit_spec (n := n) hs x.state
      rw [step_op (program_commit hl) hrun] at h
      cases h
      exact ⟨_, rfl, .commit hl hks⟩
  | rollback t =>
    cases hl : s.live t with
    | none => simp [Sys.step, Sys.program, hl] at h
    | some x =>
      obtain ⟨ks, hks, hrun, -⟩ := rollback_spec (n := n) hs x.state
      rw [step_op (program_rollback hl) hrun] at h
      cases h
      exact ⟨_, rfl, .rollback hl hks⟩

theorem replay_deletes (keys : List MvccKey) (store : Store) :
    Prog.replay (orderedEngine n) (keys.map (fun key => .delete key.encode)) store =
      eraseAll keys store := by
  induction keys generalizing store with
  | nil => rfl
  | cons key keys ih => exact ih (store.erase key.encode)

/-- What a process leaves that dies inside an operation: every handle is lost,
and the store has seen a first part of the operation's calls. -/
inductive CrashEffect (n : NilValue) (s : Sys) : Sys → Prop where
  | idle : CrashEffect n s s.lose
  | beginIdle : CrashEffect n s { s.lose with begins := s.begins + 1 }
  | beginCounted {next : Version} (counter : NextIs s.store next) :
      CrashEffect n s { s.lose with
        begins := s.begins + 1,
        store := s.store.insert (MvccKey.nextVersion).encode (some (encodeVersion (next + 1))) }
  | beginMarked {next : Version} (counter : NextIs s.store next) :
      CrashEffect n s { s.lose with begins := s.begins + 1, store := begun n next s.store }
  | writeListed {t : Nat} {x : Txn} {k : Bytes} (live : s.live t = some x)
      (free : ¬ Blocked s.store x.state k) :
      CrashEffect n s { s.lose with
        store := s.store.insert (MvccKey.txnWrite x.state.version k).encode (n.store none) }
  | written {t : Nat} {x : Txn} {k : Bytes} {value : Slice} (live : s.live t = some x)
      (free : ¬ Blocked s.store x.state k) :
      CrashEffect n s { s.lose with store := written n x.state.version k value s.store }
  | commitPart {t : Nat} {x : Txn} {ks : List Bytes} (live : s.live t = some x)
      (writes : ∀ k ∈ ks, (recordAt s.store (.txnWrite x.state.version k)).isSome) :
      CrashEffect n s { s.lose with
        store := eraseAll (ks.map (MvccKey.txnWrite x.state.version)) s.store }
  | committed {t : Nat} {x : Txn} {ks : List Bytes} (live : s.live t = some x)
      (writes : WriteSet s.store x.state.version ks) :
      CrashEffect n s
        (s.record (.commit t) (.ok .unit) (eraseAll (commitKeys x.state.version ks) s.store)).lose
  | rollbackPart {t : Nat} {x : Txn} {ks : List Bytes} {keys : List MvccKey}
      (live : s.live t = some x) (writes : WriteSet s.store x.state.version ks)
      (part : keys <+: rollbackKeys x.state.version ks) :
      CrashEffect n s { s.lose with store := eraseAll keys s.store }

theorem crash_write {t : Nat} {k : Bytes} (value : Slice) {calls : Nat} {r : Result}
    (hs : Encoded s.store) (h : s.step n (.crash (writeOp t k value) calls) = some (s', r)) :
    CrashEffect n s s' := by
  have hcrashed : ∀ store, s.crashed (writeOp t k value) store =
      { s.lose with store := store } := by
    intro store
    cases value <;> rfl
  cases hl : s.live t with
  | none =>
    rw [program_none (by cases value <;> simp [writeOp, Sys.program, hl])
      _ (.inr (.inl ⟨calls, rfl⟩))] at h
    cases h
  | some x =>
    rw [step_crash calls (program_write hl k value), hcrashed] at h
    by_cases hb : Blocked s.store x.state k
    · rw [(write_blocked hs hb _ _).2] at h
      cases h
      cases calls with
      | zero => exact .idle
      | succ calls =>
        rw [List.take_succ_cons, List.take_nil]
        exact .idle
    · rw [(write_free hs hb _ _).2] at h
      cases h
      match calls with
      | 0 | 1 => exact .idle
      | 2 => exact .writeListed hl hb
      | _ + 3 =>
        simp only [List.take_succ_cons, List.take_nil, Prog.replay_cons, Prog.replay_nil,
          orderedEngine, NilValue.store_some]
        exact .written hl hb

/-- A Commit that died has taken effect exactly when the marker is gone, which
is the last thing it deletes. -/
theorem crash_commit {t : Nat} {x : Txn} {ks : List Bytes} {keys : List MvccKey}
    (hl : s.live t = some x) (hks : WriteSet s.store x.state.version ks)
    (hmark : (recordAt s.store (.txnActive x.state.version)).isSome)
    (hkeys : keys <+: commitKeys x.state.version ks) :
    CrashEffect n s (s.crashed (.commit t) (eraseAll keys s.store)) := by
  have hcrashed : s.crashed (.commit t) (eraseAll keys s.store) =
      if (recordAt (eraseAll keys s.store) (.txnActive x.state.version)).isNone then
        (s.record (.commit t) (.ok .unit) (eraseAll keys s.store)).lose
      else { s.lose with store := eraseAll keys s.store } := by
    simp only [Sys.crashed, (live_iff.mp hl).1]
    rfl
  rw [hcrashed, recordAt_eraseAll]
  rcases List.prefix_concat_iff.mp hkeys with rfl | hpart
  · rw [if_pos (by simp)]
    exact .committed hl hks
  · have hno : MvccKey.txnActive x.state.version ∉ keys := by
      intro hin
      have := hpart.subset hin
      simp at this
    rw [if_neg hno, if_neg (by
      rw [Option.isNone_iff_eq_none, ← Ne, ← Option.isSome_iff_ne_none]
      exact hmark)]
    obtain ⟨ls, hls, rfl⟩ := List.prefix_map_iff.mp hpart
    exact .commitPart hl (fun k hk => (hks.2 k).mp (hls.subset hk))

/-- So has every operation inside of which the process dies. -/
theorem crash_effect {o : Op} {calls : Nat} {r : Result} (hs : Encoded s.store)
    (hn : o = .begin → ∃ next, NextIs s.store next)
    (hmark : ∀ t x, s.live t = some x → (recordAt s.store (.txnActive x.state.version)).isSome)
    (h : s.step n (.crash o calls) = some (s', r)) : CrashEffect n s s' := by
  cases o with
  | begin =>
    obtain ⟨next, hnext⟩ := hn rfl
    obtain ⟨active, -, -, htrace⟩ := begin_spec (n := n) hs hnext
    rw [step_crash calls (program_begin s), htrace] at h
    cases h
    match calls with
    | 0 | 1 | 2 => exact .beginIdle
    | 3 =>
      simp only [List.take_succ_cons, List.take_zero, Prog.replay_cons, Prog.replay_nil,
        orderedEngine, NilValue.store_some]
      exact .beginCounted hnext
    | _ + 4 =>
      simp only [List.take_succ_cons, List.take_nil, Prog.replay_cons, Prog.replay_nil,
        orderedEngine, NilValue.store_some]
      exact .beginMarked hnext
  | set t k v => exact crash_write (some v) hs h
  | delete t k => exact crash_write none hs h
  | get t k =>
    cases hl : s.live t with
    | none => simp [Sys.step, Sys.program, hl] at h
    | some x =>
      rw [step_crash calls (program_get hl k), get_trace] at h
      cases h
      cases calls with
      | zero => exact .idle
      | succ calls =>
        rw [List.take_succ_cons, List.take_nil]
        exact .idle
  | scanPrefix t p =>
    cases hl : s.live t with
    | none => simp [Sys.step, Sys.program, hl] at h
    | some x =>
      rw [step_crash calls (program_scanPrefix hl p), scanPrefix_trace] at h
      cases h
      cases calls with
      | zero => exact .idle
      | succ calls =>
        rw [List.take_succ_cons, List.take_nil]
        exact .idle
  | commit t =>
    cases hl : s.live t with
    | none => simp [Sys.step, Sys.program, hl] at h
    | some x =>
      obtain ⟨ks, hks, -, htrace⟩ := commit_spec (n := n) hs x.state
      rw [step_crash calls (program_commit hl), htrace] at h
      cases h
      cases calls with
      | zero => exact crash_commit hl hks (hmark t x hl) (List.nil_prefix)
      | succ calls =>
        rw [List.take_succ_cons, Prog.replay_cons, ← List.map_take, replay_deletes]
        exact crash_commit hl hks (hmark t x hl) (List.take_prefix _ _)
  | rollback t =>
    cases hl : s.live t with
    | none => simp [Sys.step, Sys.program, hl] at h
    | some x =>
      obtain ⟨ks, hks, -, htrace⟩ := rollback_spec (n := n) hs x.state
      rw [step_crash calls (program_rollback hl), htrace] at h
      cases h
      cases calls with
      | zero => exact .idle
      | succ calls =>
        rw [List.take_succ_cons, Prog.replay_cons, ← List.map_take, replay_deletes]
        exact .rollbackPart hl hks (List.take_prefix _ _)

/-- What an operation does whose Delete calls may fail: all of it, or a Commit
or Rollback up to the first fault. -/
inductive FaultEffect (n : NilValue) (s : Sys) (faults : Nat → Option Error) :
    Op → Sys → Except Error Answer → Prop where
  | op {o : Op} {s' : Sys} {r : Except Error Answer} (effect : OpEffect n s o s' r) :
      FaultEffect n s faults o s' r
  | commit {t : Nat} {x : Txn} {ks : List Bytes} {j : Nat} {e : Error} (live : s.live t = some x)
      (writes : WriteSet s.store x.state.version ks)
      (lt : j < (commitKeys x.state.version ks).length) (fault : faults j ≠ none)
      (first : ∀ i < j, faults i = none) :
      FaultEffect n s faults (.commit t)
        { s with store := eraseAll ((commitKeys x.state.version ks).take j) s.store } (.error e)
  | rollback {t : Nat} {x : Txn} {ks : List Bytes} {j : Nat} {e : Error} (live : s.live t = some x)
      (writes : WriteSet s.store x.state.version ks)
      (lt : j < (rollbackKeys x.state.version ks).length) (fault : faults j ≠ none)
      (first : ∀ i < j, faults i = none) :
      FaultEffect n s faults (.rollback t)
        { s with store := eraseAll ((rollbackKeys x.state.version ks).take j) s.store } (.error e)

theorem step_faulty {α : Type} {o : Op} {p : EngineProg α} {f : α → Answer}
    (faults : Nat → Option Error) (hp : s.program o = some (p.bind (fun a => .done (f a))))
    (hdel : ∀ key, .delete key ∉ p.trace (orderedEngine n) s.store) :
    s.step n (.faulty o faults) = s.step n (.op o) := by
  simp only [Sys.step, hp, Option.map_some]
  rw [run_faulty]
  rw [Prog.trace_map]
  exact hdel

/-- The outcome of a Commit or Rollback on the system. -/
theorem step_deleted {o : Op} {p : EngineProg Unit} {keys : List MvccKey} {r : Result}
    {faults : Nat → Option Error} (hp : s.program o = some (p.bind (fun _ => .done .unit)))
    (hd : Deleted faults 0 keys s.store (p.run (faultyEngine n faults) ⟨s.store, 0⟩))
    (h : s.step n (.faulty o faults) = some (s', r)) :
    r = some (.ok .unit) ∧ s' = s.record o (.ok .unit) (eraseAll keys s.store) ∨
      ∃ e j, r = some (.error e) ∧ j < keys.length ∧ faults j ≠ none ∧
        (∀ i < j, faults i = none) ∧
        s' = s.record o (.error e) (eraseAll (keys.take j) s.store) := by
  simp only [Sys.step, hp, Option.map_some, Prog.run_map, Option.some.injEq, Prod.mk.injEq] at h
  generalize hout : p.run (faultyEngine n faults) ⟨s.store, 0⟩ = out at h hd
  cases hd with
  | all none => exact .inl ⟨h.2.symm, h.1.symm⟩
  | @upTo j d' e lt fault first =>
    simp only [Nat.zero_add] at fault first
    exact .inr ⟨e, j, h.2.symm, lt, fault, first, h.1.symm⟩

/-- So has every operation some of whose Delete calls fail. -/
theorem fault_effect {o : Op} {faults : Nat → Option Error} {r : Result} (hs : Encoded s.store)
    (hn : o = .begin → ∃ next, NextIs s.store next)
    (h : s.step n (.faulty o faults) = some (s', r)) :
    ∃ a, r = some a ∧ FaultEffect n s faults o s' a := by
  have hsame : s.step n (.faulty o faults) = s.step n (.op o) →
      ∃ a, r = some a ∧ FaultEffect n s faults o s' a := by
    intro heq
    rw [heq] at h
    obtain ⟨a, ha, he⟩ := op_effect hs hn h
    exact ⟨a, ha, .op he⟩
  have hwrite : ∀ t k value, o = writeOp t k value →
      ∃ a, r = some a ∧ FaultEffect n s faults o s' a := by
    intro t k value ho
    cases hl : s.live t with
    | none =>
      rw [ho, program_none (by cases value <;> simp [writeOp, Sys.program, hl])
        _ (.inr (.inr ⟨faults, rfl⟩))] at h
      cases h
    | some x =>
      refine hsame ?_
      rw [ho]
      refine step_faulty faults (program_write hl k value) ?_
      intro key
      by_cases hb : Blocked s.store x.state k
      · rw [(write_blocked hs hb _ _).2]
        simp
      · rw [(write_free hs hb _ _).2]
        simp
  cases o with
  | begin =>
    obtain ⟨next, hnext⟩ := hn rfl
    obtain ⟨active, -, -, htrace⟩ := begin_spec (n := n) hs hnext
    refine hsame (step_faulty faults (program_begin s) ?_)
    intro key
    rw [htrace]
    simp
  | set t k v => exact hwrite t k (some v) rfl
  | delete t k => exact hwrite t k none rfl
  | get t k =>
    cases hl : s.live t with
    | none => simp [Sys.step, Sys.program, hl] at h
    | some x =>
      refine hsame (step_faulty faults (program_get hl k) ?_)
      intro key
      rw [get_trace]
      simp
  | scanPrefix t p =>
    cases hl : s.live t with
    | none => simp [Sys.step, Sys.program, hl] at h
    | some x =>
      refine hsame (step_faulty faults (program_scanPrefix hl p) ?_)
      intro key
      rw [scanPrefix_trace]
      simp
  | commit t =>
    cases hl : s.live t with
    | none => simp [Sys.step, Sys.program, hl] at h
    | some x =>
      obtain ⟨ks, hks, hd⟩ := commit_faulty (n := n) hs faults x.state
      rcases step_deleted (program_commit hl) hd h with ⟨rfl, rfl⟩ | ⟨e, j, rfl, hj, hf, hi, rfl⟩
      · exact ⟨_, rfl, .op (.commit hl hks)⟩
      · exact ⟨_, rfl, .commit hl hks hj hf hi⟩
  | rollback t =>
    cases hl : s.live t with
    | none => simp [Sys.step, Sys.program, hl] at h
    | some x =>
      obtain ⟨ks, hks, hd⟩ := rollback_faulty (n := n) hs faults x.state
      rcases step_deleted (program_rollback hl) hd h with ⟨rfl, rfl⟩ | ⟨e, j, rfl, hj, hf, hi, rfl⟩
      · exact ⟨_, rfl, .op (.rollback hl hks)⟩
      · exact ⟨_, rfl, .rollback hl hks hj hf hi⟩

end SpaceDB.Proofs
