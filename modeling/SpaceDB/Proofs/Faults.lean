import SpaceDB.Proofs.Operations

namespace SpaceDB.Proofs
open Lib Storage

variable {n : NilValue} {s : Store} {t : TransactionState}

/-- The outcome of deleting keys in turn on an engine that has had `d` Delete
calls: up to the first fault, if there is one. -/
inductive Deleted (faults : Nat → Option Error) (d : Nat) (keys : List MvccKey) (s : Store) :
    Except Error Unit × Faulty → Prop where
  | all (none : ∀ i < keys.length, faults (d + i) = none) :
      Deleted faults d keys s (.ok (), ⟨eraseAll keys s, d + keys.length⟩)
  | upTo {j d' : Nat} {e : Error} (lt : j < keys.length) (fault : faults (d + j) ≠ none)
      (first : ∀ i < j, faults (d + i) = none) :
      Deleted faults d keys s (.error e, ⟨eraseAll (keys.take j) s, d'⟩)

/-- One Delete more that does not fail. -/
theorem Deleted.cons {faults : Nat → Option Error} {d : Nat} {key : MvccKey} {keys : List MvccKey}
    {r : Except Error Unit × Faulty} (h0 : faults d = none)
    (h : Deleted faults (d + 1) keys (s.erase key.encode) r) :
    Deleted faults d (key :: keys) s r := by
  have hsucc : ∀ {j}, (∀ i < j, faults (d + 1 + i) = none) → ∀ i < j + 1,
      faults (d + i) = none := by
    intro j hj i hi
    cases i with
    | zero => exact h0
    | succ i =>
      rw [show d + (i + 1) = d + 1 + i by omega]
      exact hj i (by omega)
  cases h with
  | all none =>
    rw [show d + 1 + keys.length = d + (key :: keys).length by rw [List.length_cons]; omega]
    exact .all (hsucc none)
  | @upTo j d' e lt fault first =>
    exact .upTo (j := j + 1) (by simpa using lt)
      (by rwa [show d + (j + 1) = d + 1 + j by omega]) (hsucc first)

/-- Deleting one list of keys and then one more key, with faults. -/
theorem deleteThen_faulty (faults : Nat → Option Error) (wrap : Bytes → Error → Error)
    (wrapLast : Error → Error) (keys : List MvccKey) (last : MvccKey) (s : Store) (d : Nat) :
    Deleted faults d (keys ++ [last]) s (((deleteAll wrap (keys.map MvccKey.encode)).bind
      (fun _ => engineDelete last.encode wrapLast)).run (faultyEngine n faults) ⟨s, d⟩) := by
  induction keys generalizing s d with
  | nil =>
    cases hf : faults d with
    | none =>
      have hrun : ((deleteAll wrap (List.map MvccKey.encode [])).bind
          (fun _ => engineDelete last.encode wrapLast)).run (faultyEngine n faults) ⟨s, d⟩ =
          (.ok (), ⟨s.erase last.encode, d + 1⟩) := by
        simp [deleteAll, engineDelete, Prog.perform, faultyEngine, hf]
      rw [hrun]
      exact Deleted.all (by simpa using hf)
    | some e =>
      have hrun : ((deleteAll wrap (List.map MvccKey.encode [])).bind
          (fun _ => engineDelete last.encode wrapLast)).run (faultyEngine n faults) ⟨s, d⟩ =
          (.error (wrapLast e), ⟨s, d + 1⟩) := by
        simp [deleteAll, engineDelete, Prog.perform, faultyEngine, hf]
      rw [hrun]
      exact .upTo (j := 0) (by simp) (by simp [hf]) (by simp)
  | cons key keys ih =>
    cases hf : faults d with
    | none =>
      apply Deleted.cons hf
      have hrun := ih (s.erase key.encode) (d + 1)
      simpa [deleteAll, engineDelete, Prog.perform, faultyEngine, hf] using hrun
    | some e =>
      have hrun : ((deleteAll wrap (List.map MvccKey.encode (key :: keys))).bind
          (fun _ => engineDelete last.encode wrapLast)).run (faultyEngine n faults) ⟨s, d⟩ =
          (.error (wrap key.encode e), ⟨s, d + 1⟩) := by
        simp [deleteAll, engineDelete, Prog.perform, faultyEngine, hf]
      rw [hrun]
      exact .upTo (j := 0) (by simp) (by simp [hf]) (by simp)

/-- Commit deletes its keys up to the first fault. -/
theorem commit_faulty (hs : Encoded s) (faults : Nat → Option Error) (t : TransactionState) :
    ∃ ks, WriteSet s t.version ks ∧ Deleted faults 0 (commitKeys t.version ks) s
      ((MVCCTransaction.commit t).run (faultyEngine n faults) ⟨s, 0⟩) := by
  obtain ⟨as, hscan, hmem, hnodup⟩ := scan_writes hs t.version
  refine ⟨as.map Prod.fst, ⟨hnodup, hmem⟩, ?_⟩
  have hdel := deleteThen_faulty (n := n) faults
    (fun key => .wrap "storage: deleting transaction-write key %x: %w" [.bytes key])
    (.wrap "storage: marking transaction %d committed: %w" [.number t.version.val])
    ((as.map Prod.fst).map (MvccKey.txnWrite t.version)) (.txnActive t.version) s 0
  rw [← commit_targets] at hdel
  simp only [MVCCTransaction.commit, Prog.perform, Prog.bind_eq, Prog.bind_call, Prog.bind_done,
    Prog.run_call, faultyEngine, orderedEngine, hscan, scanWrites_typed, Prog.ofExcept_ok,
    activeTransactionKey, commitKeys]
  exact hdel

/-- Rollback deletes its keys up to the first fault. -/
theorem rollback_faulty (hs : Encoded s) (faults : Nat → Option Error) (t : TransactionState) :
    ∃ ks, WriteSet s t.version ks ∧ Deleted faults 0 (rollbackKeys t.version ks) s
      ((MVCCTransaction.rollback t).run (faultyEngine n faults) ⟨s, 0⟩) := by
  obtain ⟨as, hscan, hmem, hnodup⟩ := scan_writes hs t.version
  refine ⟨as.map Prod.fst, ⟨hnodup, hmem⟩, ?_⟩
  have hdel := deleteThen_faulty (n := n) faults
    (fun key => .wrap "storage: deleting key %x: %w" [.bytes key])
    (fun _ => .new "marking transaction %d rolled back" [.number t.version.val])
    ((as.map Prod.fst).flatMap (fun k => [.txnWrite t.version k, .version k t.version]))
    (.txnActive t.version) s 0
  rw [List.map_flatMap] at hdel
  simp only [MVCCTransaction.rollback, Prog.perform, Prog.bind_eq, Prog.bind_call, Prog.bind_done,
    Prog.run_call, faultyEngine, orderedEngine, hscan, scanWrites_typed, Prog.ofExcept_ok,
    activeTransactionKey, rollbackKeys, versionedKey, MvccKey.rawKey, MvccKey.versionField]
  exact hdel

/-- A program that deletes nothing meets no fault. -/
theorem run_faulty {α : Type} (faults : Nat → Option Error) (p : EngineProg α) (s : Store) (d : Nat)
    (hp : ∀ key, .delete key ∉ p.trace (orderedEngine n) s) :
    p.run (faultyEngine n faults) ⟨s, d⟩ =
      ((p.run (orderedEngine n) s).1, ⟨(p.run (orderedEngine n) s).2, d⟩) := by
  induction p generalizing s with
  | done a => rfl
  | fail e => rfl
  | call c next ih =>
    have hcall : faultyEngine n faults c ⟨s, d⟩ =
        ((orderedEngine n c s).1, ⟨(orderedEngine n c s).2, d⟩) := by
      cases c with
      | delete key => exact absurd List.mem_cons_self (hp key)
      | _ => rfl
    rw [Prog.run_call, Prog.run_call, hcall]
    exact ih _ _ (fun key hin => hp key (List.mem_cons_of_mem _ hin))

end SpaceDB.Proofs
