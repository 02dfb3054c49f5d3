import SpaceDB.Engine.Sessions
import SpaceDB.Storage.Compact

namespace SpaceDB.Engine
open Lib Storage Sql

def withTxn {α : Type} (txn : Option TransactionState) (method : TransactionState → EngineProg α) :
    EngineProg (α × Option TransactionState) :=
  match txn with
  | none => .fail noTransaction
  | some t => do return (← method t, some t)

/-- The engine calls of a call on the MVCC, with the transaction that the
session has afterwards. -/
def MvccCall.program (txn : Option TransactionState) :
    (c : MvccCall) → EngineProg (c.Val × Option TransactionState)
  | .begin => do return ((), some (← MVCC.begin))
  | .get key => withTxn txn fun t => MVCCTransaction.get t key
  | .scanPrefix start => withTxn txn fun t => MVCCTransaction.scanPrefix t start
  | .set key value => withTxn txn fun t => MVCCTransaction.set t key value
  | .delete key => withTxn txn fun t => MVCCTransaction.delete t key
  | .commit => withTxn txn MVCCTransaction.commit
  | .rollback => withTxn txn MVCCTransaction.rollback

/-- A storage engine with its data, and how a new process finds it after the last
one is gone. -/
structure Backend (σ : Type) where
  engine : Handler EngineCall EngineRet σ
  reopen : Bool → σ → σ

structure Running where
  sql : Bytes
  txn : Option TransactionState
  rest : KvM ResultSet

def Running.result (e : Running) : Option (Outcome ResultSet) :=
  match e.rest with
  | .done result => some (.ok result)
  | .fail f => some (.error f)
  | .call _ _ => none

/-- A process with its sessions. Statements are numbered through all processes
that the data has seen. -/
structure Process (σ : Type) where
  data : σ
  started : Nat
  running : Nat → Option Running

inductive ProcessEvent where
  | start (sql : Bytes)
  /-- The next call of an execution. -/
  | advance (j : Nat)
  /-- The process dies inside the next call of an execution, and another one
  opens the data, compacting it or not. -/
  | crash (j calls : Nat) (compact : Bool)
  /-- The process ends or is killed between two calls, and another one opens the
  data. -/
  | restart (compact : Bool)

namespace Process
variable {σ : Type} (backend : Backend σ) (codec : Codec) (walks : Walks (Bytes × Expression))

def start (p : Process σ) (sql : Bytes) : Process σ :=
  { p with
    started := p.started + 1
    running := Function.update p.running p.started
      (some ⟨sql, none, Session.execute codec (walks.order p.started) sql⟩) }

def calls (p : Process σ) : ProcessEvent → List EngineCall
  | .advance j =>
    match p.running j with
    | some ⟨_, txn, .call c _⟩ => (c.program txn).trace backend.engine p.data
    | _ => []
  | .crash j calls _ =>
    match p.running j with
    | some ⟨_, txn, .call c _⟩ => ((c.program txn).trace backend.engine p.data).take calls
    | _ => []
  | .start _ | .restart _ => []

def step (p : Process σ) : ProcessEvent → Option (Process σ)
  | .start sql => some (p.start codec walks sql)
  | .advance j =>
    match p.running j with
    | some ⟨sql, txn, .call c next⟩ =>
      let r := (c.program txn).run backend.engine p.data
      some { p with
        data := r.2
        running := Function.update p.running j
          (some ⟨sql, r.1.toOption.elim txn Prod.snd, next (r.1.map Prod.fst)⟩) }
    | _ => none
  | .crash j calls compact =>
    match p.running j with
    | some ⟨_, txn, .call c _⟩ =>
      some { p with
        data := backend.reopen compact ((c.program txn).upTo backend.engine calls p.data)
        running := fun _ => none }
    | _ => none
  | .restart compact =>
    some { p with data := backend.reopen compact p.data, running := fun _ => none }

def run (p : Process σ) : List ProcessEvent → Option (Process σ)
  | [] => some p
  | e :: es => (p.step backend codec walks e).bind fun p' => p'.run es

def allCalls (p : Process σ) : List ProcessEvent → List EngineCall
  | [] => []
  | e :: es => p.calls backend e ++
      ((p.step backend codec walks e).elim [] fun p' => p'.allCalls es)

end Process

/-- The file of the database. The locks of a process that is gone are free. -/
def diskBackend (names : TempNames) (name : Path) : Backend DiskWorld where
  engine := diskEngine names
  reopen compact w :=
    let r := (if compact then newDiskEngineCompact name else newDiskEngine name).run
      (fileSystem names) { w.disk with locked := [] }
    ⟨r.2, r.1.toOption⟩

end SpaceDB.Engine
