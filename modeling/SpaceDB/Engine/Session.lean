import SpaceDB.Engine.Kv
import SpaceDB.Storage.Runs

namespace SpaceDB.Engine
open Lib Storage Sql

namespace Session
variable (codec : Codec) (walk : Walk)

/-- What follows the executors: Rollback after an error, and otherwise Commit.
A panic is not recovered. -/
def finish : Outcome ResultSet → KvM ResultSet
  | .error (.panic message) => .fail (.panic message)
  | .error (.error e) => do
    match ← .perform .rollback with
    | .error rollbackErr =>
      .fail (.error (.join (.wrap "engine: executing statement: %w" [] e)
        (.wrap "engine: rolling back transaction: %w" [] rollbackErr)))
    | .ok _ => .fail (.error (.wrap "engine: executing statement: %w" [] e))
  | .ok result => do
    (mvcc .commit).wrap "engine: committing transaction: %w" []
    return result

def transact (node : Node) : KvM ResultSet := do
  (mvcc .begin).wrap "engine: beginning transaction: %w" []
  finish (← ((Sql.execute walk node).through
    (fun c => (KVTransaction.call codec c).attempt)).attempt)

def plan (sql : Bytes) : Outcome Node := do
  let statement ← (parse sql).wrap "engine: parsing SQL: %w" []
  (build statement).wrap "engine: building plan: %w" []

def execute (sql : Bytes) : KvM ResultSet := do
  transact codec walk (← .ofExcept (plan sql))

end Session
end SpaceDB.Engine
