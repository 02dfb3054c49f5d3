import SpaceDB.Proofs.RoundTrip
import SpaceDB.Proofs.ExecutorRuns
import SpaceDB.Proofs.Sessions

namespace SpaceDB.Proofs
open Lib Storage Sql Engine

variable {setting : Setting} {w : World}

def nodes : Node → List Node
  | .filter source predicate => .filter source predicate :: nodes source
  | .order source orderBy => .order source orderBy :: nodes source
  | .limit source limit => .limit source limit :: nodes source
  | .offset source offset => .offset source offset :: nodes source
  | .projection source items => .projection source items :: nodes source
  | .aggregate source items groupBy => .aggregate source items groupBy :: nodes source
  | .nestedLoopJoin left right predicate outer =>
    .nestedLoopJoin left right predicate outer :: (nodes left ++ nodes right)
  | .update tableName source assignments => .update tableName source assignments :: nodes source
  | .delete tableName source => .delete tableName source :: nodes source
  | node => [node]

/-- The nodes of a planned query are planned. -/
theorem planned_nodes {node m : Node} (h : Planned node) (hm : m ∈ nodes node) : Planned m := by
  induction node with
  | scan name =>
    rw [List.mem_singleton.mp hm]
    exact h
  | filter source predicate ih =>
    rcases List.mem_cons.mp hm with rfl | hm
    · exact h
    · exact ih h.1 hm
  | order source orderBy ih =>
    rcases List.mem_cons.mp hm with rfl | hm
    · exact h
    · exact ih h hm
  | limit source limit ih =>
    rcases List.mem_cons.mp hm with rfl | hm
    · exact h
    · exact ih h.1 hm
  | offset source offset ih =>
    rcases List.mem_cons.mp hm with rfl | hm
    · exact h
    · exact ih h.1 hm
  | projection source items ih =>
    rcases List.mem_cons.mp hm with rfl | hm
    · exact h
    · exact ih h.1 hm
  | aggregate source items groupBy ih =>
    rcases List.mem_cons.mp hm with rfl | hm
    · exact h
    · exact ih h.1 hm
  | nestedLoopJoin left right predicate outer ihleft ihright =>
    rcases List.mem_cons.mp hm with rfl | hm
    · exact h
    · rcases List.mem_append.mp hm with hm | hm
      · exact ihleft h.1 hm
      · exact ihright h.2.1 hm
  | createTable | insert | update | delete => exact h.elim

theorem RowSource.planned {name : Bytes} {source : Node} (h : RowSource name source) :
    Planned source := by
  obtain ⟨predicate, rfl, hp⟩ := h
  exact planned_filtered trivial hp

theorem plannedStatement_nodes {node m : Node} (h : PlannedStatement node) (hm : m ∈ nodes node) :
    PlannedStatement m := by
  cases node with
  | createTable schema =>
    rw [List.mem_singleton.mp hm]
    exact h
  | insert name columns values =>
    rw [List.mem_singleton.mp hm]
    exact h
  | update name source assignments =>
    rcases List.mem_cons.mp hm with rfl | hm
    · exact h
    · exact (planned_nodes h.2.1.planned hm).statement
  | delete name source =>
    rcases List.mem_cons.mp hm with rfl | hm
    · exact h
    · exact (planned_nodes h.2.planned hm).statement
  | _ => exact (planned_nodes h hm).statement

theorem anything_loose : Loose (Rule.anything MvccCall MvccRet) (fun _ => True) where
  monotone := Prog.anything_monotone
  data := fun _ _ hP r => hP r _ trivial

/-- The executors of one node over whatever answers the MVCC gives. -/
theorem node_concludes (codec : Codec) {walk : Walk} (hwalk : ∀ l, (walk l).Perm l) {node : Node}
    (h : PlannedStatement node) :
    ((Sql.execute walk node).through (fun c => (KVTransaction.call codec c).attempt)).wp
      (Rule.anything MvccCall MvccRet)
        (fun r _ => Concludes (JoinPanic node) (Fits node) r) () := by
  apply wp_kv codec Prog.anything_monotone
  apply Prog.wp_mono (kvRule_monotone codec Prog.anything_monotone) _
    (anything_loose.statement hwalk h () trivial)
  exact fun _ _ hr => hr.2

/-- However the MVCC answers, a planned statement panics at a join only. -/
theorem session_concludes (codec : Codec) {walk : Walk} (hwalk : ∀ l, (walk l).Perm l) {sql : Bytes}
    {node : Node} (h : Session.plan sql = .ok node) :
    (Session.execute codec walk sql).wp (Rule.anything MvccCall MvccRet)
      (fun r _ => Concludes (JoinPanic node) (Fits node) r) () := by
  unfold Session.execute
  rw [h]
  intro begun
  cases begun with
  | error e => exact trivial
  | ok _ =>
    change ((Prog.attempt _).bind Session.finish).wp _ _ _
    apply Prog.wp_bind Prog.anything_monotone
    apply Prog.wp_attempt Prog.anything_monotone
    apply Prog.wp_mono Prog.anything_monotone _ (node_concludes codec hwalk (planned_text h))
    intro r _ hr
    cases r with
    | ok result =>
      intro committed
      cases committed with
      | ok _ => exact hr
      | error e => exact trivial
    | error e =>
      cases e with
      | error e =>
        intro rolledBack
        cases rolledBack with
        | ok _ => exact trivial
        | error e => exact trivial
      | panic m => exact hr

/-- In every world, what is left of an execution of this text: whatever the MVCC
may answer, it ends as the whole can. -/
theorem execution_wp {sql : Bytes} {Q : Outcome ResultSet → Unit → Prop}
    (hQ : ∀ i, (Session.execute setting.codec (setting.walks.order i) sql).wp
      (Rule.anything MvccCall MvccRet) Q ())
    (h : setting.Reaches w) {j : Nat} {e : Execution} (he : w.executions j = some e)
    (hsql : e.sql = sql) : e.rest.wp (Rule.anything MvccCall MvccRet) Q () := by
  obtain ⟨events, hrun⟩ := h
  refine world_induction (P := fun w => ∀ j e, w.executions j = some e → e.sql = sql →
    e.rest.wp (Rule.anything MvccCall MvccRet) Q ()) ?_ ?_ hrun j e he hsql
  · intro m m' hm heffect i e he hsql
    cases heffect with
    | start sql' =>
      change Function.update _ _ _ _ = _ at he
      rw [Function.update_apply] at he
      split_ifs at he
      · cases he
        cases hsql
        exact hQ _
      · exact hm i e he hsql
    | advance pending =>
      change Function.update _ _ _ _ = _ at he
      rw [Function.update_apply] at he
      split_ifs at he
      · cases he
        exact hm _ _ pending hsql _
      · exact hm i e he hsql
    | crash died => cases he
  · intro j e he
    cases he

section Joins
variable {σ : Type} {walk : Walk}

/-- At every join that the executors of a plan come to, `make` takes the product
of the row counts. -/
def JoinsFit (walk : Walk) (h : Handler TxnCall TxnRet σ) : Node → σ → Prop
  | .nestedLoopJoin left right _ _, s => JoinsFit walk h left s ∧
      ∀ {leftColumns leftRows s₁}, (Sql.execute walk left).run h s =
      (.ok (.rows leftColumns leftRows), s₁) →
        JoinsFit walk h right s₁ ∧ ∀ {rightColumns rightRows s₂},
          (Sql.execute walk right).run h s₁ = (.ok (.rows rightColumns rightRows), s₂) →
            CapacityFits (leftRows.length * rightRows.length)
  | .filter source _, s | .order source _, s | .limit source _, s | .offset source _, s
  | .projection source _, s | .aggregate source _ _, s => JoinsFit walk h source s
  -- the planner puts no join under the other nodes
  | _, _ => True

/-- Where there is room the outcome is no panic, and a result satisfies `Q`.
Where there is none it is the panic of `make`. -/
structure SettledBy (room : Prop) (Q : ResultSet → Prop) (r : Outcome ResultSet) : Prop where
  ordinary : room → Ordinary Q r
  panic : ¬ room → r = .error (.panic capOutOfRange)

section Settled
variable {room room' : Prop} {Q Q' : ResultSet → Prop} {r : Outcome ResultSet}

theorem SettledBy.congr (h : SettledBy room Q r) (hroom : room ↔ room') : SettledBy room' Q r :=
  ⟨fun hr => h.ordinary (hroom.mpr hr), fun hr => h.panic fun hroom' => hr (hroom.mp hroom')⟩

theorem settledBy_true (h : Ordinary Q r) : SettledBy True Q r :=
  ⟨fun _ => h, fun hno => (hno trivial).elim⟩

theorem SettledBy.room_of_ok {result : ResultSet} (h : SettledBy room Q (.ok result)) : room := by
  by_contra hroom
  cases h.panic hroom

theorem SettledBy.room_of_error {e : Error} (h : SettledBy room Q (.error (.error e))) : room := by
  by_contra hroom
  cases h.panic hroom

theorem settledBy_error (hroom : room) (e : Error) : SettledBy room Q (.error (.error e)) :=
  ⟨fun _ => trivial, fun hno => absurd hroom hno⟩

theorem SettledBy.error {f : Fault} (h : SettledBy room Q (.error f)) (format : String)
    (args : List Arg) : SettledBy room Q' (.error (f.wrap format args)) := by
  refine ⟨fun hroom => ?_, fun hroom => ?_⟩
  · have hf := h.ordinary hroom
    cases f <;> exact hf
  · cases h.panic hroom
    rfl

end Settled

variable {h : Handler TxnCall TxnRet σ} {room : Prop} {s : σ}

/-- An executor with one source. -/
theorem SettledBy.source {source : Node} {format : String} {args : List Arg}
    {next : List Bytes × List Row → ExecM ResultSet} {Q : ResultSet → Prop}
    (hsource : SettledBy room (HasRows Wide) ((Sql.execute walk source).run h s).1)
    (hnext : ∀ columns rows s', Wide columns rows →
      Ordinary Q ((next (columns, rows)).run h s').1) :
    SettledBy room Q ((((Sql.execute walk source).wrap format args).bind fun result =>
      (Prog.ofExcept result.toRows).bind next).run h s).1 := by
  rcases hrun : (Sql.execute walk source).run h s with ⟨f | result, s'⟩
  · rw [hrun] at hsource
    rw [source_error hrun]
    exact hsource.error _ _
  · rw [hrun] at hsource
    have hroom := hsource.room_of_ok
    obtain ⟨columns, rows, rfl, hwide⟩ := hsource.ordinary hroom
    rw [source_run hrun]
    exact ⟨fun _ => hnext _ _ _ hwide, fun hno => absurd hroom hno⟩

theorem computed_rows {β : Type} {r : Outcome β} {f : β → ResultSet} {P : β → Prop}
    {Q : ResultSet → Prop}
    (hr : Ordinary P r) (hf : ∀ b, P b → Q (f b)) (s : σ) :
    Ordinary Q (((Prog.ofExcept r : ExecM β).bind fun b => .done (f b)).run h s).1 := by
  rw [run_returns]
  exact hr.map hf

/-- A join has room when its inputs have, and `make` takes the product of their
row counts. -/
theorem settledBy_join {left right : Node} {predicate : Option Expression} {outer : Bool}
    (hp : Given Comparison predicate)
    (hleft : SettledBy (JoinsFit walk h left s) (HasRows Wide) ((Sql.execute walk left).run h s).1)
    (hright : ∀ s, SettledBy (JoinsFit walk h right s) (HasRows Wide)
      ((Sql.execute walk right).run h s).1) :
    SettledBy (JoinsFit walk h (.nestedLoopJoin left right predicate outer) s) (HasRows Wide)
      ((Sql.execute walk (.nestedLoopJoin left right predicate outer)).run h s).1 := by
  rcases hl : (Sql.execute walk left).run h s with ⟨f | result, s₁⟩
  · rw [hl] at hleft
    rw [joinNode_left hl]
    refine (hleft.error _ _).congr ⟨fun hfits => ⟨hfits, fun hrun => ?_⟩, And.left⟩
    rw [hl] at hrun
    cases hrun
  rw [hl] at hleft
  have hroom := hleft.room_of_ok
  obtain ⟨leftColumns, leftRows, rfl, hlwide⟩ := hleft.ordinary hroom
  have hright := hright s₁
  rcases hr : (Sql.execute walk right).run h s₁ with ⟨f | result, s₂⟩
  · rw [hr] at hright
    rw [joinNode_right hl hr]
    refine (hright.error _ _).congr
      ⟨fun hfits => ⟨hroom, fun hrun => ?_⟩, fun hfits => (hfits.2 hl).1⟩
    rw [hl] at hrun
    cases hrun
    refine ⟨hfits, fun hrun => ?_⟩
    rw [hr] at hrun
    cases hrun
  rw [hr] at hright
  have hroom' := hright.room_of_ok
  obtain ⟨rightColumns, rightRows, rfl, hrwide⟩ := hright.ordinary hroom'
  rw [joinNode_run hl hr, joinRows_capacity]
  have hiff : CapacityFits (leftRows.length * rightRows.length) ↔
      JoinsFit walk h (.nestedLoopJoin left right predicate outer) s := by
    refine ⟨fun hfits => ⟨hroom, fun hrun => ?_⟩, fun hfits => (hfits.2 hl).2 hr⟩
    rw [hl] at hrun
    cases hrun
    refine ⟨hroom', fun hrun => ?_⟩
    rw [hr] at hrun
    cases hrun
    exact hfits
  refine SettledBy.congr ⟨fun hfits => ?_, fun hfits => ?_⟩ hiff
  · rw [if_pos hfits]
    exact (joinLoop_ordinary hp outer hlwide hrwide).map fun out hout => ⟨_, out, rfl, hout⟩
  · rw [if_neg hfits]
    rfl

/-- Every node of a query. -/
theorem query_settled
    (hscan : ∀ name s, Ordinary (HasRows Wide) ((Sql.execute walk (.scan name)).run h s).1)
    {node : Node} (hplanned : Planned node) (s : σ) :
    SettledBy (JoinsFit walk h node s) (HasRows Wide) ((Sql.execute walk node).run h s).1 := by
  induction node generalizing s with
  | scan name => exact settledBy_true (hscan name s)
  | filter source predicate ih =>
    refine (ih hplanned.1 s).source fun columns rows s' hwide => ?_
    exact computed_rows (filterRows_ordinary hplanned.2 hwide 0)
      (fun kept hkept => ⟨columns, kept, rfl, hwide.subset hkept⟩) s'
  | order source orderBy ih =>
    refine (ih hplanned s).source fun columns rows s' hwide => ?_
    exact computed_rows (orderRows_ordinary orderBy hwide)
      (fun out hout => ⟨columns, out, rfl, hwide.subset hout⟩) s'
  | limit source limit ih =>
    refine (ih hplanned.1 s).source fun columns rows s' hwide => ?_
    exact computed_rows (limitRows_ordinary hplanned.2 rows)
      (fun out hout => ⟨columns, out, rfl, hwide.subset hout⟩) s'
  | offset source offset ih =>
    refine (ih hplanned.1 s).source fun columns rows s' hwide => ?_
    exact computed_rows (offsetRows_ordinary hplanned.2 rows)
      (fun out hout => ⟨columns, out, rfl, hwide.subset hout⟩) s'
  | projection source items ih =>
    refine (ih hplanned.1 s).source fun columns rows s' hwide => ?_
    exact computed_rows (projectRows_ordinary hplanned.2 hwide)
      (fun out hout => ⟨out.1, out.2, rfl, hout⟩) s'
  | aggregate source items groupBy ih =>
    refine (ih hplanned.1 s).source fun columns rows s' hwide => ?_
    exact computed_rows (aggregateRows_ordinary hwide hplanned.2.1 hplanned.2.2)
      (fun out hout => ⟨out.1, out.2, rfl, hout⟩) s'
  | nestedLoopJoin left right predicate outer ihleft ihright =>
    exact settledBy_join hplanned.2.2 (ihleft hplanned.1 s) (ihright hplanned.2.1)
  | createTable | insert | update | delete => exact hplanned.elim

end Joins

section Statements
variable {σ : Type} (codec : Codec) (h : Handler MvccCall MvccRet σ)

def overMvcc : Handler TxnCall TxnRet σ := fun c s => (KVTransaction.call codec c).run h s

variable {walk : Walk} (hwalk : ∀ l, (walk l).Perm l) {node : Node}
    (hplanned : PlannedStatement node)
include hwalk hplanned

theorem node_run_concludes (s : σ) : Concludes (JoinPanic node) (Fits node)
    ((Sql.execute walk node).run (overMvcc codec h) s).1 := by
  obtain ⟨-, -, hr⟩ := Prog.wp_run (h := h) (w := s) (fun _ _ => True)
    (fun c P _ _ _ hc => ⟨(), trivial, hc _⟩) trivial (node_concludes codec hwalk hplanned)
  rwa [Prog.run_through] at hr

theorem node_run_ordinary (hjoin : hasJoin node = false) (s : σ) :
    Ordinary (Fits node) ((Sql.execute walk node).run (overMvcc codec h) s).1 := by
  apply (node_run_concludes codec h hwalk hplanned s).panics
  exact fun message hpanic => Bool.eq_false_iff.mp hjoin hpanic.1

/-- The node of a statement, over whatever answers the MVCC gives. -/
theorem node_settled (s : σ) : SettledBy (JoinsFit walk (overMvcc codec h) node s) (Fits node)
    ((Sql.execute walk node).run (overMvcc codec h) s).1 := by
  have hscan : ∀ name s, Ordinary (HasRows Wide)
      ((Sql.execute walk (.scan name)).run (overMvcc codec h) s).1 := by
    intro name s
    have hplanned : PlannedStatement (.scan name) := trivial
    exact node_run_ordinary codec h hwalk hplanned rfl s
  cases node with
  | createTable | insert | update | delete =>
    exact settledBy_true (node_run_ordinary codec h hwalk hplanned rfl s)
  | _ => exact query_settled hscan hplanned s

end Statements

end SpaceDB.Proofs
