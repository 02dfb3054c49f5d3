import Mathlib.Logic.Function.Basic
import SpaceDB.Storage.Mvcc

namespace SpaceDB.Storage
open Lib

inductive Status where
  | live
  | committed
  | rolledBack
  | lost
  deriving DecidableEq

/-- A transaction handle with what has happened through it: its successful
writes in order (a Delete writes nil), and the handles whose Commit had taken
effect when it began, in commit order. -/
structure Txn where
  state : TransactionState
  status : Status
  writes : List (Bytes × Slice)
  seen : List Nat
  deriving DecidableEq

/-- Any number of transactions over one engine. A handle is the number of the
Begin call that returned it; `commits` is the commit order. -/
structure Sys where
  store : Store
  begins : Nat
  txns : Nat → Option Txn
  commits : List Nat

def Sys.init : Sys := ⟨.empty, 0, fun _ => none, []⟩

inductive Op where
  | begin
  | get (t : Nat) (key : Bytes)
  | scanPrefix (t : Nat) (start : Bytes)
  | set (t : Nat) (key value : Bytes)
  | delete (t : Nat) (key : Bytes)
  | commit (t : Nat)
  | rollback (t : Nat)
  deriving DecidableEq

inductive Answer where
  | handle (state : TransactionState)
  | value (v : Slice)
  | entries (es : List Entry)
  | unit
  deriving DecidableEq

def Sys.live (s : Sys) (t : Nat) : Option Txn :=
  (s.txns t).filter (fun x => decide (x.status = .live))

/-- The engine calls of one operation; none for a handle that has ended. Every
operation holds the lock of the MVCC from its first to its last call. -/
def Sys.program (s : Sys) : Op → Option (EngineProg Answer)
  | .begin => some do return .handle (← MVCC.begin)
  | .get t key => (s.live t).map fun x => do return .value (← MVCCTransaction.get x.state key)
  | .scanPrefix t start =>
    (s.live t).map fun x => do return .entries (← MVCCTransaction.scanPrefix x.state start)
  | .set t key value => (s.live t).map fun x => do
    MVCCTransaction.set x.state key value
    return .unit
  | .delete t key => (s.live t).map fun x => do
    MVCCTransaction.delete x.state key
    return .unit
  | .commit t => (s.live t).map fun x => do
    MVCCTransaction.commit x.state
    return .unit
  | .rollback t => (s.live t).map fun x => do
    MVCCTransaction.rollback x.state
    return .unit

def Sys.update (s : Sys) (t : Nat) (f : Txn → Txn) : Sys :=
  { s with txns := Function.update s.txns t ((s.txns t).map f) }

def Sys.wrote (s : Sys) (t : Nat) (key : Bytes) (value : Slice) : Sys :=
  s.update t (fun x => { x with writes := x.writes ++ [(key, value)] })

def Sys.record (s : Sys) (o : Op) (r : Except Error Answer) (store : Store) : Sys :=
  let s' := { s with store := store }
  match o, r with
  | .begin, .ok (.handle state) =>
    { s' with
      begins := s.begins + 1,
      txns := Function.update s.txns s.begins (some ⟨state, .live, [], s.commits⟩) }
  | .begin, _ => { s' with begins := s.begins + 1 }
  | .set t key value, .ok _ => s'.wrote t key (some value)
  | .delete t key, .ok _ => s'.wrote t key none
  | .commit t, .ok _ =>
    { s'.update t (fun x => { x with status := .committed }) with commits := s.commits ++ [t] }
  | .rollback t, .ok _ => s'.update t (fun x => { x with status := .rolledBack })
  | _, _ => s'

def Sys.lose (s : Sys) : Sys :=
  { s with txns := fun t => (s.txns t).map fun x =>
      if x.status = .live then { x with status := .lost } else x }

/-- The bookkeeping after the process died inside an operation. A Commit has
taken effect exactly when it had removed the active marker. -/
def Sys.crashed (s : Sys) (o : Op) (store : Store) : Sys :=
  match o with
  | .begin => ({ s with store := store, begins := s.begins + 1 } : Sys).lose
  | .commit t =>
    match s.txns t with
    | some x =>
      if (store.find? (activeTransactionKey x.state.version).encode).isNone then
        (s.record o (.ok .unit) store).lose
      else ({ s with store := store } : Sys).lose
    | none => ({ s with store := store } : Sys).lose
  | _ => ({ s with store := store } : Sys).lose

inductive Step where
  /-- An operation that runs to its end on a fault-free engine. -/
  | op (o : Op)
  /-- The process dies after at most `calls` engine calls of an operation. -/
  | crash (o : Op) (calls : Nat)
  /-- An operation whose Delete calls may fail. -/
  | faulty (o : Op) (faults : Nat → Option Error)

/-- Nothing fails and no process dies. -/
def Step.plain : Step → Prop
  | .op _ => True
  | _ => False

/-- Processes may die, but no engine call fails. -/
def Step.reliable : Step → Prop
  | .faulty _ _ => False
  | _ => True

abbrev Result := Option (Except Error Answer)

/-- One step; none when it uses a handle that has ended. -/
def Sys.step (n : NilValue) (s : Sys) : Step → Option (Sys × Result)
  | .op o => (s.program o).map fun p =>
    let r := p.run (orderedEngine n) s.store
    (s.record o r.1 r.2, some r.1)
  | .crash o calls => (s.program o).map fun p =>
    (s.crashed o (p.upTo (orderedEngine n) calls s.store), none)
  | .faulty o faults => (s.program o).map fun p =>
    let r := p.run (faultyEngine n faults) ⟨s.store, 0⟩
    (s.record o r.1 r.2.store, some r.1)

def Sys.run (n : NilValue) : Sys → List Step → Option (Sys × List Result)
  | s, [] => some (s, [])
  | s, st :: steps =>
    match s.step n st with
    | none => none
    | some (s', r) => (s'.run n steps).map fun (s'', rs) => (s'', r :: rs)

def Reaches (n : NilValue) (kind : Step → Prop) (s : Sys) : Prop :=
  ∃ steps results, (∀ st ∈ steps, kind st) ∧ Sys.init.run n steps = some (s, results)

/-- The value a list of writes leaves at a key, if it writes there at all. -/
def lastWrite (ws : List (Bytes × Slice)) (key : Bytes) : Option Slice :=
  (ws.reverse.find? (fun w => decide (w.1 = key))).map Prod.snd

def applyWrites (db : Bytes → Slice) (ws : List (Bytes × Slice)) : Bytes → Slice :=
  ws.foldl (fun db w => Function.update db w.1 w.2) db

/-- The database after the writes of the given transactions, in their order. -/
def Sys.database (s : Sys) (us : List Nat) : Bytes → Slice :=
  us.foldl (fun db u => applyWrites db ((s.txns u).elim [] Txn.writes)) (fun _ => none)

end SpaceDB.Storage
