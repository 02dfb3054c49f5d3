import SpaceDB.Lib.Passing
import SpaceDB.Proofs.SerialStore

namespace SpaceDB.Proofs
open Lib Storage Sql Engine

/-- The write conflict is the error or one of its causes. -/
def Names : Error → Prop
  | .new format args => Error.new format args = writeConflict
  | .wrap _ _ cause => Names cause
  | .join first second => Names first ∨ Names second

def Conflict (f : Fault) : Prop := ∃ e, f = .error e ∧ Names e

theorem Conflict.wrap {f : Fault} (h : Conflict f) (format : String) (args : List Arg) :
    Conflict (f.wrap format args) := by
  obtain ⟨e, rfl, he⟩ := h
  exact ⟨_, rfl, he⟩

def refused (c : MvccCall) (r : MvccRet c) : Prop := onData c ∧ r = .error writeConflict

def conflicting (c : TxnCall) (r : TxnRet c) : Prop := ∃ f, r = .error f ∧ Conflict f

abbrev KvPasses {α : Type} (p : KvM α) : Prop := p.Passes refused Conflict

abbrev ExecPasses {α : Type} (p : ExecM α) : Prop := p.Passes conflicting Conflict

theorem kv_wrapped {α : Type} {p : KvM α} (h : KvPasses p) (format : String) (args : List Arg) :
    KvPasses (p.wrap format args) :=
  h.wrapped fun _ hf => hf.wrap format args

theorem mvcc_passes (c : MvccCall) : KvPasses (mvcc c) := by
  refine ⟨?_, fun r => Prog.passes_check _ r⟩
  intro r hr
  obtain ⟨-, rfl⟩ := hr
  exact ⟨_, rfl, writeConflict, rfl, rfl⟩

section Kv
variable (codec : Codec)

theorem getTable_passes (name : Bytes) : KvPasses (KVTransaction.getTable codec name) := by
  refine (Prog.passes_ofExcept _).followed (fun key => (mvcc_passes _).followed (fun v => ?_))
  cases v with
  | none => trivial
  | some encoded => exact (Prog.passes_check _ _).followed (fun _ => trivial)

theorem createTable_passes (table : Table) : KvPasses (KVTransaction.createTable codec table) := by
  refine (Prog.passes_ofExcept _).followed
    (fun _ => (getTable_passes codec _).followed (fun found => ?_))
  split_ifs
  · exact Prog.passes_ofExcept _
  · refine (Prog.passes_ofExcept _).followed (fun key => ?_)
    exact (Prog.passes_check _ _).followed (fun encoded => mvcc_passes _)

theorem createRow_passes (name : Bytes) (row : Row) :
    KvPasses (KVTransaction.createRow codec name row) := by
  refine (kv_wrapped (getTable_passes codec name) _ _).followed (fun found => ?_)
  cases found with
  | none => exact Prog.passes_ofExcept _
  | some table =>
    refine (Prog.passes_ofExcept _).followed
      (fun _ => (Prog.passes_ofExcept _).followed (fun pk => ?_))
    refine (Prog.passes_ofExcept _).followed
      (fun key => (kv_wrapped (mvcc_passes _) _ _).followed (fun v => ?_))
    split_ifs
    · exact Prog.passes_ofExcept _
    · exact (Prog.passes_check _ _).followed (fun encoded => mvcc_passes _)

theorem moveRow_passes (table : Table) (old new : Value) (key : Bytes) :
    KvPasses (KVTransaction.moveRow table old new key) := by
  unfold KVTransaction.moveRow
  split_ifs
  · refine (Prog.passes_ofExcept _).followed
      (fun oldKey => (kv_wrapped (mvcc_passes _) _ _).followed (fun v => ?_))
    split_ifs
    · exact Prog.passes_ofExcept _
    · exact kv_wrapped (mvcc_passes _) _ _
  · trivial

theorem updateRow_passes (table : Table) (old : Value) (row : Row) :
    KvPasses (KVTransaction.updateRow codec table old row) := by
  refine (Prog.passes_ofExcept _).followed
    (fun _ => (Prog.passes_ofExcept _).followed (fun pk => ?_))
  refine (Prog.passes_ofExcept _).followed
    (fun key => (moveRow_passes table old pk key).followed (fun _ => ?_))
  exact (Prog.passes_check _ _).followed (fun encoded => mvcc_passes _)

/-- A refused write ends the method that made it. -/
theorem call_passes (c : TxnCall) : KvPasses (KVTransaction.call codec c) := by
  cases c with
  | createRow name row => exact createRow_passes codec name row
  | updateRow table old row => exact updateRow_passes codec table old row
  | deleteRow table pk =>
    exact (Prog.passes_ofExcept _).followed (fun key => kv_wrapped (mvcc_passes _) _ _)
  | scanTable table =>
    refine (Prog.passes_ofExcept _).followed (fun start => ?_)
    exact (kv_wrapped (mvcc_passes _) _ _).followed (fun es => Prog.passes_ofExcept _)
  | createTable table => exact createTable_passes codec table
  | getTable name => exact getTable_passes codec name

end Kv

section Executors

theorem exec_wrapped {α : Type} {p : ExecM α} (h : ExecPasses p) (format : String)
    (args : List Arg) : ExecPasses (p.wrap format args) :=
  h.wrapped fun _ hf => hf.wrap format args

theorem txn_passes (c : TxnCall) : ExecPasses (txn c) := by
  refine ⟨?_, fun r => Prog.passes_ofExcept r⟩
  intro r hr
  obtain ⟨f, rfl, hf⟩ := hr
  exact ⟨f, rfl, hf⟩

theorem loadTable_passes (name : Bytes) : ExecPasses (loadTable name) := by
  refine (exec_wrapped (txn_passes _) _ _).followed (fun found => ?_)
  cases found with
  | none => exact Prog.passes_ofExcept _
  | some table => trivial

theorem insertRows_passes (name : Bytes) (table : Table) (columns : List Bytes) (i : Nat)
    (values : List (List Expression)) : ExecPasses (insertRows name table columns i values) := by
  induction values generalizing i with
  | nil => trivial
  | cons es values ih =>
    refine (Prog.passes_ofExcept _).followed
      (fun row => (Prog.passes_ofExcept _).followed (fun full => ?_))
    exact (exec_wrapped (txn_passes _) _ _).followed (fun _ => ih (i + 1))

theorem updateRows_passes (table : Table) (assignments : List (Nat × Value)) (i : Nat)
    (rows : List Row) : ExecPasses (updateRows table assignments i rows) := by
  induction rows generalizing i with
  | nil => trivial
  | cons row rows ih =>
    refine (Prog.passes_ofExcept _).followed
      (fun pk => (Prog.passes_ofExcept _).followed (fun new => ?_))
    exact (exec_wrapped (txn_passes _) _ _).followed (fun _ => ih (i + 1))

theorem deleteRows_passes (table : Table) (i : Nat) (rows : List Row) :
    ExecPasses (deleteRows table i rows) := by
  induction rows generalizing i with
  | nil => trivial
  | cons row rows ih =>
    refine (Prog.passes_ofExcept _).followed (fun pk => ?_)
    exact (exec_wrapped (txn_passes _) _ _).followed (fun _ => ih (i + 1))

/-- What an executor goes on with after its source. -/
theorem rows_passes {α : Type} (result : ResultSet) {next : List Bytes × List Row → ExecM α}
    (h : ∀ rows, ExecPasses (next rows)) :
    ExecPasses ((Prog.ofExcept result.toRows).bind next) :=
  (Prog.passes_ofExcept _).followed h

theorem computed_passes {α β : Type} (r : Outcome α) (f : α → β) :
    ExecPasses ((Prog.ofExcept r).bind fun a => .done (f a)) :=
  (Prog.passes_ofExcept _).followed fun _ => trivial

/-- Every executor ends at the first refused write. -/
theorem execute_passes (walk : Walk) (node : Node) : ExecPasses (Sql.execute walk node) := by
  induction node with
  | createTable schema => exact (txn_passes _).followed fun _ => trivial
  | insert name columns values =>
    refine (loadTable_passes name).followed (fun table => ?_)
    exact (insertRows_passes name table columns 0 values).followed fun _ => trivial
  | scan name =>
    refine (loadTable_passes name).followed (fun table => ?_)
    exact (exec_wrapped (txn_passes _) _ _).followed fun _ => trivial
  | filter source predicate ih =>
    exact (exec_wrapped ih _ _).followed fun result => rows_passes result fun _ =>
      computed_passes _ _
  | order source orderBy ih =>
    exact (exec_wrapped ih _ _).followed fun result => rows_passes result fun _ =>
      computed_passes _ _
  | offset source offset ih =>
    exact (exec_wrapped ih _ _).followed fun result => rows_passes result fun _ =>
      computed_passes _ _
  | limit source limit ih =>
    exact (exec_wrapped ih _ _).followed fun result => rows_passes result fun _ =>
      computed_passes _ _
  | projection source items ih =>
    exact (exec_wrapped ih _ _).followed fun result => rows_passes result fun _ =>
      computed_passes _ _
  | aggregate source items groupBy ih =>
    exact (exec_wrapped ih _ _).followed fun result => rows_passes result fun _ =>
      computed_passes _ _
  | nestedLoopJoin left right predicate outer ihl ihr =>
    refine (exec_wrapped ihl _ _).followed (fun result => rows_passes result fun _ => ?_)
    exact (exec_wrapped ihr _ _).followed fun result => rows_passes result fun _ =>
      computed_passes _ _
  | update name source assignments ih =>
    refine (loadTable_passes name).followed
      (fun table => (Prog.passes_ofExcept _).followed fun resolved => ?_)
    refine ih.followed (fun result => rows_passes result fun _ => ?_)
    exact (updateRows_passes _ _ _ _).followed fun _ => trivial
  | delete name source ih =>
    refine (loadTable_passes name).followed
      (fun table => ih.followed fun result => rows_passes result fun _ => ?_)
    exact (deleteRows_passes _ _ _).followed fun _ => trivial

end Executors

/-- What is left of an execution after a refused write: it rolls back, and then
returns the conflict. -/
def Refused (rest : KvM ResultSet) : Prop :=
  ∃ f, Conflict f ∧ (rest = Session.finish (.error f) ∨
    rest = .fail (f.wrap "engine: executing statement: %w" []))

theorem finish_meets (r : Outcome ResultSet) : (Session.finish r).Meets refused Refused := by
  cases r with
  | ok result =>
    refine ⟨fun a ha => ha.1.elim, fun a => ?_⟩
    cases a <;> trivial
  | error f =>
    cases f with
    | panic message => trivial
    | error e =>
      refine ⟨fun a ha => ha.1.elim, fun a => ?_⟩
      cases a <;> trivial

/-- The whole of a statement after Begin. -/
theorem body_meets (codec : Codec) (walk : Walk) (node : Node) :
    (((Sql.execute walk node).through fun c => (KVTransaction.call codec c).attempt).attempt.bind
      Session.finish).Meets refused Refused := by
  have hbody := Prog.passes_through (call_passes codec) (execute_passes walk node)
  have hattempt : (((Sql.execute walk node).through
      fun c => (KVTransaction.call codec c).attempt).attempt :
        KvM (Outcome ResultSet)).Meets refused (fun q =>
          ∃ f, q = .done (.error f) ∧ Conflict f) := by
    apply hbody.attempt
    intro q hq
    obtain ⟨f, rfl, hf⟩ := hq
    exact ⟨f, rfl, hf⟩
  apply hattempt.bind finish_meets
  intro q hq
  obtain ⟨f, rfl, hf⟩ := hq
  exact ⟨f, hf, .inl rfl⟩

/-- A session with a refused write rolls back and returns the conflict. -/
theorem session_meets (codec : Codec) (walk : Walk) (sql : Bytes) :
    (Session.execute codec walk sql).Meets refused Refused := by
  unfold Session.execute
  cases Session.plan sql with
  | error f => trivial
  | ok node =>
    refine ⟨fun r hr => hr.1.elim, fun r => ?_⟩
    cases r with
    | ok u => exact body_meets codec walk node
    | error e => trivial

end SpaceDB.Proofs
