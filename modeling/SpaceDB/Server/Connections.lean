import SpaceDB.Engine.Sessions
import SpaceDB.Sql.Result

namespace SpaceDB.Server
open Lib Storage Sql Engine

def maxRequestSize : Nat := 1024 * 1024

/-- The SQL of a line. A blank line is no request. -/
def request (line : Bytes) : Option Bytes :=
  let sql := trimSpace line
  if sql = [] then none else some sql

/-- What is written for the outcome of a statement. A panic ends the process. -/
def response (texts : Texts) : Outcome ResultSet → Option Bytes
  | .ok result => some (texts.formatResult result ++ [newline])
  | .error (.error e) => some (ascii "ERROR: " ++ texts.error e ++ [newline])
  | .error (.panic _) => none

/-- Where `handleConnection` is: in `scanner.Scan`, in `session.Execute` with the
statement of that number, or done. -/
inductive Stage where
  | scanning
  | executing (j : Nat)
  | closed
  deriving DecidableEq

structure Connection where
  scanner : LineScanner
  stage : Stage
  /-- What has been written to the client. -/
  sent : Bytes
  deriving DecidableEq

def Connection.new : Connection := ⟨.new 4096, .scanning, []⟩

/-- Every connection has its goroutine; they share the engine. Connections are
numbered through all processes that the database has seen. -/
structure State where
  world : World
  accepted : Nat
  connections : Nat → Option Connection

def State.init : State := ⟨.init, 0, fun _ => none⟩

def State.put (s : State) (k : Nat) (c : Connection) : State :=
  { s with connections := Function.update s.connections k (some c) }

inductive NetEvent where
  | accept
  /-- The loop of `handleConnection` takes the next line out of the buffer. -/
  | scan (k : Nat)
  /-- A read returns bytes. -/
  | receive (k : Nat) (chunk : Bytes)
  /-- A read returns io.EOF or another error. -/
  | hangup (k : Nat)
  /-- The next call of the statement of a connection. -/
  | advance (k : Nat)
  /-- The response is written and flushed. -/
  | respond (k : Nat)
  /-- Writing the response fails after `n` bytes. -/
  | fail (k n : Nat)
  /-- The process dies inside the next call of a statement. -/
  | crash (k calls : Nat)
  /-- The process ends between two calls. -/
  | restart

/-- The sessions of a server, with the texts it writes. -/
structure Host where
  setting : Setting
  texts : Texts

namespace Host
variable (host : Host)

def reply (w : World) (j : Nat) : Option Bytes :=
  ((w.executions j).bind Execution.result).bind (response host.texts)

def statement (s : State) (k : Nat) : Option (Connection × Nat) :=
  match s.connections k with
  | some c =>
    match c.stage with
    | .executing j => some (c, j)
    | _ => none
  | none => none

/-- A connection that is in `scanner.Scan`, and how that goes on. -/
def scanning (s : State) (k : Nat) : Option (Connection × Scanned) :=
  match s.connections k with
  | some c => if c.stage = .scanning then some (c, c.scanner.scan maxRequestSize) else none
  | none => none

def step (s : State) : NetEvent → Option State
  | .accept =>
    some { s.put s.accepted .new with accepted := s.accepted + 1 }
  | .scan k =>
    match scanning s k with
    | some (c, .line line scanner) =>
      match request line with
      | some sql =>
        some { s.put k { c with scanner := scanner, stage := .executing s.world.started } with
          world := host.setting.start s.world sql }
      | none => some (s.put k { c with scanner := scanner })
    | some (c, .stopped _) => some (s.put k { c with stage := .closed })
    | _ => none
  | .receive k chunk =>
    match scanning s k with
    | some (c, .more scanner) =>
      if chunk ≠ [] ∧ scanner.start + scanner.data.length + chunk.length ≤ scanner.size then
        some (s.put k { c with scanner := scanner.fill chunk })
      else none
    | _ => none
  | .hangup k =>
    match scanning s k with
    | some (c, .more scanner) => some (s.put k { c with scanner := scanner.close })
    | _ => none
  | .advance k =>
    (statement s k).bind fun (_, j) =>
      (host.setting.step s.world (.advance j)).map fun w => { s with world := w }
  | .respond k =>
    (statement s k).bind fun (c, j) =>
      ((s.world.executions j).bind Execution.result).map fun r =>
        match response host.texts r with
        | some text => s.put k { c with stage := .scanning, sent := c.sent ++ text }
        | none => { s with connections := fun _ => none }
  | .fail k n =>
    (statement s k).bind fun (c, j) => (host.reply s.world j).map fun text =>
      s.put k { c with stage := .closed, sent := c.sent ++ text.take n }
  | .crash k calls =>
    (statement s k).bind fun (_, j) =>
      (host.setting.step s.world (.crash j calls)).map fun w =>
        { s with world := w, connections := fun _ => none }
  | .restart => some { s with connections := fun _ => none }

def run (s : State) : List NetEvent → Option State
  | [] => some s
  | e :: es => (host.step s e).bind fun s' => run s' es

end Host

def newStatement (k : Nat) (s s' : State) : NetEvent → List Nat
  | .scan i => if i = k ∧ s.world.started < s'.world.started then [s.world.started] else []
  | _ => []

/-- The statements that a run starts for a connection, in their order. -/
def statements (host : Host) (k : Nat) : State → List NetEvent → List Nat
  | _, [] => []
  | s, e :: es =>
    match host.step s e with
    | some s' => newStatement k s s' e ++ statements host k s' es
    | none => []

def received (k : Nat) (events : List NetEvent) : Bytes :=
  events.flatMap fun
    | .receive i chunk => if i = k then chunk else []
    | _ => []

def requests (input : Bytes) (ended : Bool) : List Bytes :=
  (readLines maxRequestSize input ended).filterMap request

end SpaceDB.Server
