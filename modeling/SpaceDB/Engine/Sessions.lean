import SpaceDB.Engine.Session
import SpaceDB.Lib.OrderedMap

namespace SpaceDB.Engine
open Lib Storage Sql

/-- The operation that a call stands for, when the transaction of the caller is
`handle`. -/
def MvccCall.op (handle : Option Nat) : MvccCall → Option Op
  | .begin => some .begin
  | .get key => handle.map (Op.get · key)
  | .scanPrefix start => handle.map (Op.scanPrefix · start)
  | .set key value => handle.map (Op.set · key value)
  | .delete key => handle.map (Op.delete · key)
  | .commit => handle.map Op.commit
  | .rollback => handle.map Op.rollback

/-- The error of a call without a live transaction; no session makes one. -/
def noTransaction : Error := .new "no transaction" []

def MvccCall.answer : (c : MvccCall) → Except Error Answer → MvccRet c
  | .get _, .ok (.value v) => .ok v
  | .scanPrefix _, .ok (.entries es) => .ok es
  | .begin, .ok (.handle _) => .ok ()
  | .set _ _, .ok .unit => .ok ()
  | .delete _, .ok .unit => .ok ()
  | .commit, .ok .unit => .ok ()
  | .rollback, .ok .unit => .ok ()
  | _, .error e => .error e
  | _, .ok _ => .error noTransaction

def MvccCall.next (handle : Option Nat) (begins : Nat) : MvccCall → Except Error Answer → Option Nat
  | .begin, .ok _ => some begins
  | _, _ => handle

/-- The MVCC as one session sees it. -/
def serve (n : NilValue) : Handler MvccCall MvccRet (Sys × Option Nat) := fun c w =>
  match (c.op w.2).bind (fun o => w.1.step n (.op o)) with
  | some (s, some r) => (c.answer r, (s, c.next w.2 w.1.begins r))
  | _ => (c.answer (.error noTransaction), w)

/-- A call of `Session.Execute` with the rest of it that is still to run. -/
structure Execution where
  sql : Bytes
  handle : Option Nat
  rest : KvM ResultSet

def Execution.result (e : Execution) : Option (Outcome ResultSet) :=
  match e.rest with
  | .done result => some (.ok result)
  | .fail f => some (.error f)
  | .call _ _ => none

/-- What no statement changes: the engine's answer for nil, the JSON library,
and the orders in which the statements walk over their assignments. -/
structure Setting where
  nil : NilValue
  codec : Codec
  walks : Walks (Bytes × Expression)

/-- Any number of sessions over one database. An execution has the number of
statements that were started before it. -/
structure World where
  sys : Sys
  started : Nat
  executions : Nat → Option Execution

def World.init : World := ⟨.init, 0, fun _ => none⟩

inductive Event where
  | start (sql : Bytes)
  /-- The next call of an execution. -/
  | advance (j : Nat)
  /-- The process dies inside the next call of an execution. -/
  | crash (j : Nat) (calls : Nat)

namespace Setting
variable (setting : Setting)

def start (w : World) (sql : Bytes) : World :=
  { w with
    started := w.started + 1
    executions := Function.update w.executions w.started
      (some ⟨sql, none, Session.execute setting.codec (setting.walks.order w.started) sql⟩) }

def step (w : World) : Event → Option World
  | .start sql => some (setting.start w sql)
  | .advance j =>
    match w.executions j with
    | some ⟨sql, handle, .call c next⟩ =>
      let r := serve setting.nil c (w.sys, handle)
      some { w with
        sys := r.2.1
        executions := Function.update w.executions j (some ⟨sql, r.2.2, next r.1⟩) }
    | _ => none
  | .crash j calls =>
    match w.executions j with
    | some ⟨_, handle, .call c _⟩ =>
      ((c.op handle).bind (fun o => w.sys.step setting.nil (.crash o calls))).map fun r =>
        { w with sys := r.1, executions := fun _ => none }
    | _ => none

def run (w : World) : List Event → Option World
  | [] => some w
  | e :: es => (setting.step w e).bind (fun w' => run w' es)

def Reaches (w : World) : Prop := ∃ events, setting.run .init events = some w

def execute (i : Nat) (sql : Bytes) (s : Sys) : Outcome ResultSet × Sys :=
  let r := (Session.execute setting.codec (setting.walks.order i) sql).run
    (serve setting.nil) (s, none)
  (r.1, r.2.1)

def look (s : Sys) (c : TxnCall) : Outcome c.Val :=
  (((mvcc .begin).bind fun _ => KVTransaction.call setting.codec c).run
    (serve setting.nil) (s, none)).1

end Setting

/-- A panic is not recovered: it ends the process. -/
def panicked {α : Type} : Outcome α → Bool
  | .error (.panic _) => true
  | _ => false

/-- Statements one after the other, from statement number `i` on, until one
panics. -/
def inTurn {σ : Type} (execute : Nat → Bytes → σ → Outcome ResultSet × σ) :
    Nat → List Bytes → σ → List (Outcome ResultSet) × σ
  | _, [], s => ([], s)
  | i, sql :: sqls, s =>
    let r := execute i sql s
    if panicked r.1 then ([r.1], r.2)
    else
      let rest := inTurn execute (i + 1) sqls r.2
      (r.1 :: rest.1, rest.2)

end SpaceDB.Engine
