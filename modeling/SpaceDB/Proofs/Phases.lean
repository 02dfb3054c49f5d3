import SpaceDB.Proofs.ParsedStatements
import SpaceDB.Proofs.Transactions

namespace SpaceDB.Proofs
open Lib Storage Sql Engine

abbrev Db := Bytes → Slice

/-- Where a call of `Session.Execute` stands: `base` is the database that its
transaction began with, and `view` what it sees after its own writes. -/
inductive Phase where
  | idle
  | running (base view : Db)
  | committed
  | rolledBack

def Underway (phase : Phase) : Prop := ∃ base view, phase = .running base view

/-- What an execution has to show for its calls and may expect of them. It
begins with a database that satisfies `inv`, and its writes satisfy `ok`. -/
def phaseRule (inv : Db → Prop) (ok : Db → Bytes × Slice → Prop) : Rule MvccCall MvccRet Phase :=
  fun c P phase => match c, P, phase with
  | .begin, P, .idle => ∀ db, inv db → P (.ok ()) (.running db db)
  | .get key, P, .running base view => P (.ok (view key)) (.running base view)
  | .scanPrefix start, P, .running base view =>
    ∀ es, (∀ e ∈ es, start <+: e.key ∧ e.value.isSome ∧ e.value = view e.key) →
      P (.ok es) (.running base view)
  | .set key value, P, .running base view =>
    ok base (key, some value) ∧
      P (.ok ()) (.running base (Function.update view key (some value))) ∧
      P (.error writeConflict) (.running base view)
  | .delete key, P, .running base view =>
    ok base (key, none) ∧ P (.ok ()) (.running base (Function.update view key none)) ∧
      P (.error writeConflict) (.running base view)
  | .commit, P, .running _ _ => P (.ok ()) .committed
  | .rollback, P, .running _ _ => P (.ok ()) .rolledBack
  | _, _, _ => False

/-- How an execution ends: with a result it has committed; with an error it
never began, or has rolled back. A panic leaves the transaction as it is. -/
def Ended : Outcome ResultSet → Phase → Prop
  | .ok _, .committed => True
  | .error _, .idle => True
  | .error (.error _), .rolledBack => True
  | .error (.panic _), .running _ _ => True
  | _, _ => False

section Rule
variable {inv : Db → Prop} {ok : Db → Bytes × Slice → Prop}

theorem phaseRule_monotone : (phaseRule inv ok).Monotone := by
  intro c P Q phase hPQ h
  cases phase with
  | running base view =>
    cases c with
    | begin => exact h
    | get key => exact hPQ _ _ h
    | scanPrefix start => exact fun es hes => hPQ _ _ (h es hes)
    | set key value => exact ⟨h.1, hPQ _ _ h.2.1, hPQ _ _ h.2.2⟩
    | delete key => exact ⟨h.1, hPQ _ _ h.2.1, hPQ _ _ h.2.2⟩
    | commit => exact hPQ _ _ h
    | rollback => exact hPQ _ _ h
  | idle =>
    cases c with
    | begin => exact fun db hdb => hPQ _ _ (h db hdb)
    | _ => exact h
  | committed => cases c <;> exact h
  | rolledBack => cases c <;> exact h

end Rule

/-- A transaction that begins finds a database with `inv`, and it can end. -/
structure Phased (rule : Rule MvccCall MvccRet Phase) (inv : Db → Prop) : Prop where
  monotone : rule.Monotone
  begin : ∀ {P}, (∀ db, inv db → P (.ok ()) (.running db db)) → rule .begin P .idle
  commit : ∀ {P base view}, P (.ok ()) .committed → rule .commit P (.running base view)
  rollback : ∀ {P base view}, P (.ok ()) .rolledBack → rule .rollback P (.running base view)

theorem phaseRule_phased (inv : Db → Prop) (ok : Db → Bytes × Slice → Prop) :
    Phased (phaseRule inv ok) inv :=
  ⟨phaseRule_monotone, fun h => h, fun h => h, fun h => h⟩

section Phased
variable {rule : Rule MvccCall MvccRet Phase} {inv : Db → Prop} {codec : Codec}
    (h : Phased rule inv)
include h

/-- What follows the calls of a transaction ends it. -/
theorem Phased.finish {body : ExecM ResultSet} {phase : Phase}
    (hbody : body.wp (kvRule codec rule) (fun _ phase => Underway phase) phase) :
    ((body.through (fun c => (KVTransaction.call codec c).attempt)).attempt.bind Session.finish).wp
      rule Ended phase := by
  apply Prog.wp_bind h.monotone
  apply Prog.wp_attempt h.monotone
  apply Prog.wp_mono h.monotone _ (wp_kv codec h.monotone hbody)
  rintro r _ ⟨base, view, rfl⟩
  cases r with
  | ok result => exact h.commit trivial
  | error e =>
    cases e with
    | error e => exact h.rollback trivial
    | panic m => exact trivial

/-- An execution keeps to the phases if its executors do. -/
theorem Phased.session {walk : Walk} {sql : Bytes}
    (hbody : ∀ node, Session.plan sql = .ok node → ∀ db, inv db →
      (Sql.execute walk node).wp (kvRule codec rule) (fun _ phase => Underway phase)
        (.running db db)) :
    (Session.execute codec walk sql).wp rule Ended .idle := by
  unfold Session.execute
  cases hplan : Session.plan sql with
  | error e => exact trivial
  | ok node =>
    apply h.begin
    intro db hdb
    exact h.finish (hbody node hplan db hdb)

/-- The same, with CREATE TABLE apart: it consists of one call. -/
theorem Phased.statements {walk : Walk} {sql : Bytes}
    (hcreate : ∀ schema, Session.plan sql = .ok (.createTable schema) → ∀ db, inv db →
      (KVTransaction.createTable codec schema).wp rule (fun _ phase => Underway phase)
        (.running db db))
    (hothers : ∀ node, Session.plan sql = .ok node → (∀ schema, node ≠ .createTable schema) →
      ∀ db, inv db → (Sql.execute walk node).wp (kvRule codec rule) (fun _ phase => Underway phase)
        (.running db db)) :
    (Session.execute codec walk sql).wp rule Ended .idle := by
  apply h.session
  intro node hplan db hdb
  by_cases hnode : ∃ schema, node = .createTable schema
  · obtain ⟨schema, rfl⟩ := hnode
    exact Prog.wp_seq (kvRule_monotone codec h.monotone)
      (wp_txn codec h.monotone (hcreate schema hplan db hdb)) (fun _ _ hu => hu) (fun _ _ hu => hu)
  · exact hothers node hplan (fun schema heq => hnode ⟨schema, heq⟩) db hdb

end Phased

abbrev freeRule : Rule MvccCall MvccRet Phase := phaseRule (fun _ => True) (fun _ _ => True)

theorem free_loose : Loose freeRule Underway where
  monotone := phaseRule_monotone
  data := by
    rintro c P _ hc ⟨base, view, rfl⟩ hP
    cases c with
    | begin | commit | rollback => exact hc.elim
    | get key => exact hP _ _ ⟨base, view, rfl⟩
    | scanPrefix start => exact fun es _ => hP _ _ ⟨base, view, rfl⟩
    | set key value => exact ⟨trivial, hP _ _ ⟨_, _, rfl⟩, hP _ _ ⟨_, _, rfl⟩⟩
    | delete key => exact ⟨trivial, hP _ _ ⟨_, _, rfl⟩, hP _ _ ⟨_, _, rfl⟩⟩

section Loose
variable {S : Type} {rule : Rule MvccCall MvccRet S} {I : S → Prop} (hl : Loose rule I)
include hl

/-- CreateTable where nothing is asked of the writes. -/
theorem Loose.createTable (codec : Codec) (table : Table) :
    Behaves rule I (fun _ => True) (KVTransaction.createTable codec table) := by
  intro s hs
  cases hkey : tableKey table.name with
  | ok key =>
    refine kv_createTable codec hl.monotone (fun _ h => h) hkey (hl.mvcc _ trivial) ?_ hs
    exact fun encoded s _ _ _ hs => hl.mvcc (.set key encoded) trivial s hs
  | error e =>
    -- the name is empty, which Validate has found out before
    have hempty : table.name = [] := by
      by_contra hne
      rw [tableKey, if_neg hne] at hkey
      cases hkey
    have hvalid : (table.validate.wrap "engine: invalid table: %v" []) =
        .error (Fault.wrap "engine: invalid table: %v" []
          (.error (.new "schema: table name cannot be empty" []))) := by
      unfold Table.validate
      rw [if_pos hempty]
      rfl
    unfold KVTransaction.createTable
    rw [hvalid]
    exact ⟨hs, trivial⟩

/-- The executors of a planned statement, whatever the database answers. -/
theorem Loose.statement {codec : Codec} {walk : Walk} (hwalk : ∀ l, (walk l).Perm l) {node : Node}
    (h : PlannedStatement node) :
    Conducts (JoinPanic node) (kvRule codec rule) I (Fits node) (Sql.execute walk node) := by
  apply statement_behaves (hl.stores codec).serves hwalk h (fun _ _ => trivial)
  exact fun schema _ => behaves_txn codec hl.monotone (hl.createTable codec schema)

end Loose

theorem planned_text {sql : Bytes} {node : Node} (h : Session.plan sql = .ok node) :
    PlannedStatement node := by
  obtain ⟨statement, hparse, hbuild⟩ := outcome_bind_ok h
  exact planned_build (wellFormed_of_parse (outcome_wrap_ok hparse)) (outcome_wrap_ok hbuild)

/-- Every execution of every text keeps to the phases. -/
theorem session_phases (codec : Codec) {walk : Walk} (hwalk : ∀ l, (walk l).Perm l) (sql : Bytes) :
    (Session.execute codec walk sql).wp freeRule Ended .idle := by
  apply (phaseRule_phased _ _).session
  intro node hplan db _
  apply Prog.wp_mono (kvRule_monotone codec phaseRule_monotone) _
    (free_loose.statement hwalk (planned_text hplan) _ ⟨db, db, rfl⟩)
  exact fun _ _ hr => hr.1

end SpaceDB.Proofs
