import SpaceDB.Proofs.StoreView
import SpaceDB.Storage.Mvcc

namespace SpaceDB.Proofs
open Lib Storage

variable {n : NilValue} {s : Store} {t : TransactionState}

theorem scanActive_typed (as : List (Version × Slice)) :
    scanActive (as.map (fun q => .ok ⟨(MvccKey.txnActive q.1).encode, q.2⟩)) =
      .ok (as.map Prod.fst) := by
  induction as with
  | nil => rfl
  | cons q as ih =>
    simp only [List.map_cons, scanActive, decode_encode, ih]
    rfl

theorem scanWrites_typed (v : Version) (targets : Bytes → MvccKey → List Bytes)
    (as : List (Bytes × Slice)) :
    scanWrites v targets (as.map (fun q => .ok ⟨(MvccKey.txnWrite v q.1).encode, q.2⟩)) =
      .ok ((as.map Prod.fst).flatMap
        (fun k => targets (MvccKey.txnWrite v k).encode (.txnWrite v k))) := by
  induction as with
  | nil => rfl
  | cons q as ih =>
    simp only [List.map_cons, scanWrites, decode_encode, ih, List.flatMap_cons]
    rfl

def NextIs (s : Store) (v : Version) : Prop := loadNext (recordAt s .nextVersion).join = .ok v

/-- Begin takes the stored counter and exactly the marked versions, then makes
two writes. -/
theorem begin_spec {next : Version} (hs : Encoded s) (hn : NextIs s next) :
    ∃ active : List Version,
      (∀ v, v ∈ active ↔ (recordAt s (.txnActive v)).isSome) ∧
      MVCC.begin.run (orderedEngine n) s =
        (.ok ⟨next, active⟩, (s.insert (MvccKey.nextVersion).encode
          (some (encodeVersion (next + 1)))).insert (MvccKey.txnActive next).encode
            (n.store none)) ∧
      MVCC.begin.trace (orderedEngine n) s =
        [.get (MvccKey.nextVersion).encode, .scanPrefix activeTransactionPrefix,
          .set (MvccKey.nextVersion).encode (some (encodeVersion (next + 1))),
          .set (MvccKey.txnActive next).encode none] := by
  obtain ⟨as, hscan, hmem⟩ := scan_active hs
  have hnext : loadNext (s.find? (MvccKey.nextVersion).encode).join = .ok next := hn
  refine ⟨as.map Prod.fst, hmem, ?_, ?_⟩
  · simp [MVCC.begin, Prog.perform, orderedEngine, hnext, hscan, scanActive_typed,
      engineSet, nextVersionKey, activeTransactionKey]
  · simp [MVCC.begin, Prog.perform, orderedEngine, hnext, hscan, scanActive_typed,
      engineSet, nextVersionKey, activeTransactionKey]

theorem deleteAll_run (wrap : Bytes → Error → Error) (keys : List MvccKey) (s : Store) :
    (deleteAll wrap (keys.map MvccKey.encode)).run (orderedEngine n) s =
      (.ok (), eraseAll keys s) := by
  induction keys generalizing s with
  | nil => rfl
  | cons key keys ih =>
    simpa [deleteAll, engineDelete, Prog.perform, orderedEngine] using ih (s.erase key.encode)

theorem deleteAll_trace (wrap : Bytes → Error → Error) (keys : List MvccKey) (s : Store) :
    (deleteAll wrap (keys.map MvccKey.encode)).trace (orderedEngine n) s =
      keys.map (fun key => .delete key.encode) := by
  induction keys generalizing s with
  | nil => rfl
  | cons key keys ih =>
    simpa [deleteAll, engineDelete, Prog.perform, orderedEngine] using ih (s.erase key.encode)

/-- The raw keys a transaction has write records for, each once. -/
def WriteSet (s : Store) (v : Version) (ks : List Bytes) : Prop :=
  ks.Nodup ∧ ∀ k, k ∈ ks ↔ (recordAt s (.txnWrite v k)).isSome

def commitKeys (v : Version) (ks : List Bytes) : List MvccKey :=
  ks.map (MvccKey.txnWrite v) ++ [.txnActive v]

def rollbackKeys (v : Version) (ks : List Bytes) : List MvccKey :=
  ks.flatMap (fun k => [.txnWrite v k, .version k v]) ++ [.txnActive v]

/-- Deleting one list of keys and then one more key. -/
theorem deleteThen_spec (wrap : Bytes → Error → Error) (wrapLast : Error → Error)
    (keys : List MvccKey) (last : MvccKey) (s : Store) :
    ((deleteAll wrap (keys.map MvccKey.encode)).bind
        (fun _ => engineDelete last.encode wrapLast)).run (orderedEngine n) s =
      (.ok (), eraseAll (keys ++ [last]) s) ∧
    ((deleteAll wrap (keys.map MvccKey.encode)).bind
        (fun _ => engineDelete last.encode wrapLast)).trace (orderedEngine n) s =
      (keys ++ [last]).map (fun key => .delete key.encode) := by
  have hrun := deleteAll_run (n := n) wrap keys s
  rw [Prog.run_bind_ok _ hrun, Prog.trace_bind_ok _ hrun, deleteAll_trace]
  constructor
  · simp [engineDelete, Prog.perform, orderedEngine, eraseAll, List.foldl_append]
  · simp [engineDelete, Prog.perform, orderedEngine]

/-- Commit deletes the write records under the keys it scanned. -/
theorem commit_targets (v : Version) (ks : List Bytes) :
    ks.flatMap (fun k => [(MvccKey.txnWrite v k).encode]) =
      (ks.map (MvccKey.txnWrite v)).map MvccKey.encode := by
  rw [List.map_map]
  exact List.map_eq_flatMap.symm

/-- Commit deletes the write records and then the marker, and nothing else. -/
theorem commit_spec (hs : Encoded s) (t : TransactionState) :
    ∃ ks, WriteSet s t.version ks ∧
      (MVCCTransaction.commit t).run (orderedEngine n) s =
        (.ok (), eraseAll (commitKeys t.version ks) s) ∧
      (MVCCTransaction.commit t).trace (orderedEngine n) s =
        .scanPrefix (transactionWritePrefix t.version) ::
          (commitKeys t.version ks).map (fun key => .delete key.encode) := by
  obtain ⟨as, hscan, hmem, hnodup⟩ := scan_writes hs t.version
  refine ⟨as.map Prod.fst, ⟨hnodup, hmem⟩, ?_⟩
  have hdel := deleteThen_spec (n := n)
    (fun key => .wrap "storage: deleting transaction-write key %x: %w" [.bytes key])
    (.wrap "storage: marking transaction %d committed: %w" [.number t.version.val])
    ((as.map Prod.fst).map (MvccKey.txnWrite t.version)) (.txnActive t.version) s
  simp only [MVCCTransaction.commit, Prog.perform, Prog.bind_eq, Prog.bind_call, Prog.bind_done,
    Prog.run_call, Prog.trace_call, orderedEngine, hscan, scanWrites_typed, Prog.ofExcept_ok,
    commit_targets, activeTransactionKey, commitKeys]
  exact ⟨hdel.1, congrArg _ hdel.2⟩

/-- Rollback deletes each write record with its version, and then the marker. -/
theorem rollback_spec (hs : Encoded s) (t : TransactionState) :
    ∃ ks, WriteSet s t.version ks ∧
      (MVCCTransaction.rollback t).run (orderedEngine n) s =
        (.ok (), eraseAll (rollbackKeys t.version ks) s) ∧
      (MVCCTransaction.rollback t).trace (orderedEngine n) s =
        .scanPrefix (transactionWritePrefix t.version) ::
          (rollbackKeys t.version ks).map (fun key => .delete key.encode) := by
  obtain ⟨as, hscan, hmem, hnodup⟩ := scan_writes hs t.version
  refine ⟨as.map Prod.fst, ⟨hnodup, hmem⟩, ?_⟩
  have hdel := deleteThen_spec (n := n)
    (fun key => .wrap "storage: deleting key %x: %w" [.bytes key])
    (fun _ => .new "marking transaction %d rolled back" [.number t.version.val])
    ((as.map Prod.fst).flatMap (fun k => [.txnWrite t.version k, .version k t.version]))
    (.txnActive t.version) s
  rw [List.map_flatMap] at hdel
  simp only [MVCCTransaction.rollback, Prog.perform, Prog.bind_eq, Prog.bind_call, Prog.bind_done,
    Prog.run_call, Prog.trace_call, orderedEngine, hscan, scanWrites_typed, Prog.ofExcept_ok,
    activeTransactionKey, rollbackKeys, versionedKey, MvccKey.rawKey, MvccKey.versionField]
  exact ⟨hdel.1, congrArg _ hdel.2⟩

def Newest (s : Store) (k : Bytes) (w : Version) : Prop :=
  (recordAt s (.version k w)).isSome ∧ ∀ v, (recordAt s (.version k v)).isSome → v ≤ w

/-- The write check of `t` finds an invisible newest version. -/
def Blocked (s : Store) (t : TransactionState) (k : Bytes) : Prop :=
  ∃ w, t.fromVersion ≤ w ∧ Newest s k w ∧ t.isVisible w = false

/-- The scan of the write check decides whether the newest version is visible. -/
theorem checkNewest_spec (hs : Encoded s) (t : TransactionState) (k : Bytes) :
    (Blocked s t k → checkNewest t k (Store.scan s (some (MvccKey.version k t.fromVersion).encode)
      (some ((MvccKey.version k maxVersion).encode ++ [0]))).reverse = .error writeConflict) ∧
    (¬ Blocked s t k → checkNewest t k (Store.scan s (some (MvccKey.version k t.fromVersion).encode)
      (some ((MvccKey.version k maxVersion).encode ++ [0]))).reverse = .ok ()) := by
  obtain ⟨as, hscan, hmem, hsort⟩ := scan_versions_last hs k t.fromVersion
  rw [hscan]
  rcases List.eq_nil_or_concat as with rfl | ⟨l, q, rfl⟩
  · refine ⟨?_, fun _ => rfl⟩
    intro h
    obtain ⟨w, hw, ⟨hrec, -⟩, -⟩ := h
    obtain ⟨x, hx⟩ := Option.isSome_iff_exists.mp hrec
    cases (hmem w x).mpr ⟨hw, hx⟩
  · obtain ⟨hq, hrec⟩ := (hmem q.1 q.2).mp (by simp)
    have hnew : Newest s k q.1 := by
      refine ⟨by rw [hrec]; rfl, ?_⟩
      intro v hv
      obtain ⟨x, hx⟩ := Option.isSome_iff_exists.mp hv
      by_contra hlt
      have hin := (hmem v x).mpr ⟨le_trans hq (le_of_lt (not_le.mp hlt)), hx⟩
      rw [List.concat_eq_append, List.mem_append, List.mem_singleton] at hin
      rcases hin with hin | hin
      · rw [List.concat_eq_append, List.pairwise_append] at hsort
        exact hlt (le_of_lt (hsort.2.2 _ hin q (by simp)))
      · exact hlt (hin ▸ le_refl _)
    have hres : checkNewest t k
        ((List.map (fun q => Except.ok (⟨(MvccKey.version k q.1).encode, q.2⟩ : Entry))
        (l.concat q)).reverse) =
        if !t.isVisible q.1 then .error writeConflict else .ok () := by
      simp [checkNewest, decode_encode, MvccKey.versionField]
    rw [hres]
    constructor
    · intro h
      obtain ⟨w, -, hw, hvis⟩ := h
      have : w = q.1 := le_antisymm (hnew.2 w hw.1) (hw.2 q.1 hnew.1)
      rw [← this, hvis]
      rfl
    · intro h
      cases hvis : t.isVisible q.1 with
      | true => rfl
      | false => exact absurd ⟨q.1, hq, hnew, hvis⟩ h

/-- A write that is not blocked records the key in the write set, then stores
the version. -/
theorem write_free (hs : Encoded s) {k : Bytes} (h : ¬ Blocked s t k) (value : Bytes)
    (deleted : Bool) :
    (MVCCTransaction.write t k value deleted).run (orderedEngine n) s =
        (.ok (), (s.insert (MvccKey.txnWrite t.version k).encode (n.store none)).insert
          (MvccKey.version k t.version).encode (some (encodeVersionedValue value deleted))) ∧
      (MVCCTransaction.write t k value deleted).trace (orderedEngine n) s =
        [.scanReverse (some (MvccKey.version k t.fromVersion).encode)
            (some ((MvccKey.version k maxVersion).encode ++ [0])),
          .set (MvccKey.txnWrite t.version k).encode none,
          .set (MvccKey.version k t.version).encode
            (some (encodeVersionedValue value deleted))] := by
  have hcheck := (checkNewest_spec hs t k).2 h
  constructor
  · simp [MVCCTransaction.write, Prog.perform, orderedEngine, versionedKey, hcheck, engineSet,
      transactionWriteKey]
  · simp [MVCCTransaction.write, Prog.perform, orderedEngine, versionedKey, hcheck, engineSet,
      transactionWriteKey]

/-- A write that is refused has changed nothing. -/
theorem write_blocked (hs : Encoded s) {k : Bytes} (h : Blocked s t k) (value : Bytes)
    (deleted : Bool) :
    (MVCCTransaction.write t k value deleted).run (orderedEngine n) s =
        (.error writeConflict, s) ∧
      (MVCCTransaction.write t k value deleted).trace (orderedEngine n) s =
        [.scanReverse (some (MvccKey.version k t.fromVersion).encode)
            (some ((MvccKey.version k maxVersion).encode ++ [0]))] := by
  have hcheck := (checkNewest_spec hs t k).1 h
  constructor
  · simp [MVCCTransaction.write, Prog.perform, orderedEngine, versionedKey, hcheck]
  · simp [MVCCTransaction.write, Prog.perform, orderedEngine, versionedKey, hcheck]

end SpaceDB.Proofs
