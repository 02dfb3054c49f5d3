import SpaceDB.Engine.Sessions

namespace SpaceDB.Engine
open Lib Storage Sql

/-- A transaction of a program that uses `KVEngine` without a session: Begin, the
calls of `body`, and then Commit or, after an error, Rollback. -/
def KVEngine.transact (codec : Codec) (body : ExecM ResultSet) : KvM ResultSet := do
  mvcc .begin
  Session.finish (← (body.through (fun c => (KVTransaction.call codec c).attempt)).attempt)

/-- The tables that a program has in hand after a call: what GetTable has
returned, and what CreateTable has stored. -/
def learned (known : List Table) : (c : TxnCall) → TxnRet c → List Table
  | .getTable _, .ok (some table) => table :: known
  | .createTable table, .ok _ => table :: known
  | _, _ => known

def Permitted (names : Bytes → Prop) (known : List Table) : TxnCall → Prop
  | .updateRow table _ _ => table ∈ known
  | .createTable table => names table.name
  | _ => True

/-- The program updates rows of tables only that it has in hand, and `names` are
those of the tables it creates. It does not panic unless a call does. -/
def Careful (names : Bytes → Prop) : List Table → ExecM ResultSet → Prop
  | _, .done _ => True
  | _, .fail f => ∃ e, f = .error e
  | known, .call c next =>
    Permitted names known c ∧
      ∀ r, (∀ message, r ≠ .error (.panic message)) → Careful names (learned known c r) (next r)

def Codec.Holds (codec : Codec) (db : Bytes → Slice) (table : Table) : Prop :=
  ∃ encoded, db (keyNamespaceTable :: table.name) = some encoded ∧
    codec.decodeTable encoded = .ok table

namespace Setting
variable (setting : Setting)

def join (w : World) (body : ExecM ResultSet) : World :=
  { w with
    started := w.started + 1
    executions := Function.update w.executions w.started
      (some ⟨[], none, KVEngine.transact setting.codec body⟩) }

/-- The worlds that sessions and programs together lead to. A program begins with
tables in hand that are in the database. -/
inductive Used (names : Bytes → Prop) : World → Prop where
  | init : Used names .init
  | event {w w' : World} {e : Event} (before : Used names w) (step : setting.step w e = some w') :
      Used names w'
  | begin {w w' : World} {known : List Table} {body : ExecM ResultSet} (before : Used names w)
      (held : ∀ table ∈ known, setting.codec.Holds (w.sys.database w.sys.commits) table)
      (careful : Careful names known body)
      (step : setting.step (setting.join w body) (.advance w.started) = some w') : Used names w'

/-- Transaction `t` has not ended, and it has the table: from its snapshot, or by
its own CreateTable. -/
def Sees (s : Sys) (t : Nat) (table : Table) : Prop :=
  ∃ x, s.live t = some x ∧ setting.codec.Holds (applyWrites (s.database x.seen) x.writes) table

def ask (s : Sys) (t : Nat) (c : TxnCall) : Outcome c.Val :=
  ((KVTransaction.call setting.codec c).run (serve setting.nil) (s, some t)).1

end Setting
end SpaceDB.Engine
