import SpaceDB.Proofs.StatementSnapshots

namespace SpaceDB.Proofs
open Lib Storage Sql Engine

variable {s : Sys} {t : Nat} {x : Txn} {m m' : Contents} {setting : Setting} {w w' : World}

/-- The answer to the call depends on this key. -/
def consults : MvccCall → Bytes → Prop
  | .get key, k => key = k
  | .scanPrefix start, k => start <+: k
  | _, _ => False

def Consulted (cs : List MvccCall) (k : Bytes) : Prop := ∃ c ∈ cs, consults c k

instance : (c : MvccCall) → (k : Bytes) → Decidable (consults c k)
  | .get key, k => inferInstanceAs (Decidable (key = k))
  | .scanPrefix start, k => inferInstanceAs (Decidable (start <+: k))
  | .begin, _ | .set _ _, _ | .delete _, _ | .commit, _ | .rollback, _ =>
    inferInstanceAs (Decidable False)

instance (cs : List MvccCall) (k : Bytes) : Decidable (Consulted cs k) :=
  inferInstanceAs (Decidable (∃ c ∈ cs, consults c k))

theorem under_congr {start : Bytes} (h : ∀ k, start <+: k → m.find? k = m'.find? k) :
    under m start = under m' start := by
  apply List.Pairwise.eq_of_mem_iff (under_sorted m start) (under_sorted m' start)
  intro e
  rw [mem_under, mem_under]
  exact and_congr_right fun hstart => by rw [h e.1 hstart]

/-- A call is answered alike on maps that agree where it looks. -/
theorem direct_congr {c : MvccCall} (h : ∀ k, consults c k → m.find? k = m'.find? k) :
    (direct c m).1 = (direct c m').1 := by
  cases c with
  | get key => exact congrArg Except.ok (h key rfl)
  | scanPrefix start =>
    simp only [direct]
    rw [under_congr h]
  | _ => rfl

/-- A call writes the same into every map. -/
theorem direct_find? (c : MvccCall) (m : Contents) (k : Bytes) :
    (direct c m).2.find? k = applyWrites m.find? (callWrites c) k := by
  cases c with
  | set key value =>
    simp only [direct, callWrites, applyWrites, List.foldl_cons, List.foldl_nil]
    rw [OrderedMap.find?_insert, Function.update_apply]
    split_ifs <;> rfl
  | delete key =>
    simp only [direct, callWrites, applyWrites, List.foldl_cons, List.foldl_nil]
    rw [OrderedMap.find?_erase, Function.update_apply]
    split_ifs <;> rfl
  | _ => rfl

theorem applyWrites_append (db : Db) (ws vs : List (Bytes × Slice)) :
    applyWrites db (ws ++ vs) = applyWrites (applyWrites db ws) vs := List.foldl_append

theorem applyWrites_congr {db db' : Db} {k : Bytes} (h : db k = db' k) (ws : List (Bytes × Slice)) :
    applyWrites db ws k = applyWrites db' ws k := by
  rw [applyWrites_eq, applyWrites_eq, h]

section Programs
variable {ε α : Type} {p : Prog MvccCall MvccRet ε α}

/-- A program changes a map by its writes. -/
theorem run_writes (p : Prog MvccCall MvccRet ε α) (m : Contents) :
    Holding (applyWrites m.find? (traceWrites (p.trace direct m))) (p.run direct m).2 := by
  induction p generalizing m with
  | done a => exact fun _ => rfl
  | fail e => exact fun _ => rfl
  | call c next ih =>
    rw [Prog.trace_call, traceWrites_cons, applyWrites_append, Prog.run_call,
      ← funext (direct_find? c m)]
    exact ih _ _

/-- A program cannot tell two maps apart that agree on what it consults. -/
theorem run_congr (h : ∀ k, Consulted (p.trace direct m) k → m.find? k = m'.find? k) :
    (p.run direct m').1 = (p.run direct m).1 ∧ p.trace direct m' = p.trace direct m := by
  induction p generalizing m m' with
  | done a => exact ⟨rfl, rfl⟩
  | fail e => exact ⟨rfl, rfl⟩
  | call c next ih =>
    have hanswer : (direct c m').1 = (direct c m).1 :=
      (direct_congr fun k hk => h k ⟨c, List.mem_cons_self, hk⟩).symm
    rw [Prog.run_call, Prog.run_call, Prog.trace_call, Prog.trace_call, hanswer]
    have hafter : ∀ k, Consulted ((next (direct c m).1).trace direct (direct c m).2) k →
        (direct c m).2.find? k = (direct c m').2.find? k := by
      intro k hk
      obtain ⟨d, hd, hdk⟩ := hk
      rw [direct_find?, direct_find?]
      exact applyWrites_congr (h k ⟨d, List.mem_cons_of_mem _ hd, hdk⟩) _
    obtain ⟨hresult, htrace⟩ := ih (direct c m).1 hafter
    exact ⟨hresult, congrArg _ htrace⟩

end Programs

/-- No transaction that committed after the snapshot of `x` and before its own
commit has written what the statement consults on that snapshot. -/
def Undisturbed (setting : Setting) (j : Nat) (sql : Bytes) (s : Sys) (x : Txn)
    (before : List Nat) :
    Prop :=
  ∀ u ∈ before, u ∉ x.seen → ∀ v ∈ writesOf s u,
    ¬ Consulted ((Session.execute setting.codec (setting.walks.order j) sql).trace direct
      (committedMap s x.seen)) v.1

/-- A statement that was not disturbed in what it reads might as well have run
alone at the moment of its commit. -/
theorem undisturbed_serial (h : setting.Reaches w) (hb : w.sys.begins < 2 ^ 64 - 1) {j : Nat}
    {e : Execution} {result : ResultSet} {before after : List Nat} (he : w.executions j = some e)
    (hr : e.result = some (.ok result)) (ht : e.handle = some t) (hx : w.sys.txns t = some x)
    (hcommits : w.sys.commits = before ++ t :: after)
    (hundisturbed : Undisturbed setting j e.sql w.sys x before) :
    serially setting j e.sql (committedMap w.sys before) =
      (.ok result, committedMap w.sys (before ++ [t])) := by
  have hinv := reaches_inv h hb
  obtain ⟨y, hy, -, ⟨hrun, hwrites⟩ | ⟨f, hf, -⟩⟩ := reaches_returned h hb he hr ht
  · rw [hx] at hy
    cases hy
    have hsofar : before ++ [t] <+: w.sys.commits :=
      ⟨after, by rw [hcommits, List.append_assoc]; rfl⟩
    obtain ⟨z, later, hz, hbefore, -⟩ := hinv.committed_after hsofar
    rw [hx] at hz
    cases hz
    have hnodup : (x.seen ++ later).Nodup := by
      have hall := hinv.nodup
      rw [hcommits, hbefore] at hall
      exact (List.nodup_append.mp hall).1
    have hagree : ∀ k, Consulted
        ((Session.execute setting.codec (setting.walks.order j) e.sql).trace
        direct (committedMap w.sys x.seen)) k →
        (committedMap w.sys x.seen).find? k = (committedMap w.sys before).find? k := by
      intro k hk
      rw [← holding_committed, ← holding_committed, hbefore]
      refine (database_skip fun u hu hkey => ?_).symm
      obtain ⟨v, hv, rfl⟩ := List.mem_map.mp hkey
      have hunseen : u ∉ x.seen := fun hin => List.disjoint_of_nodup_append hnodup hin hu
      exact hundisturbed u (hbefore ▸ List.mem_append_right _ hu) hunseen v hv hk
    obtain ⟨hsame, htrace⟩ := run_congr hagree
    obtain ⟨hresult, hleft⟩ := run_serially setting j e.sql (committedMap w.sys before)
    rw [hsame, hrun] at hresult
    refine Prod.ext hresult.symm ((hleft result hresult.symm).symm.trans ?_)
    have hend := run_writes (Session.execute setting.codec (setting.walks.order j) e.sql)
      (committedMap w.sys before)
    rw [htrace, hwrites, ← funext (holding_committed w.sys before),
      ← database_snoc before hx] at hend
    exact hend.unique (holding_committed w.sys _)
  · cases hf

def commitsBefore (s : Sys) (t : Nat) : List Nat := s.commits.takeWhile (· ≠ t)

theorem commitsBefore_eq {before after : List Nat} (hcommits : s.commits = before ++ t :: after)
    (hnodup : s.commits.Nodup) : commitsBefore s t = before := by
  rw [hcommits] at hnodup
  have hne : ∀ u ∈ before, decide (u ≠ t) = true := by
    intro u hu
    exact decide_eq_true ((List.nodup_append.mp hnodup).2.2 u hu t List.mem_cons_self)
  rw [commitsBefore, hcommits, List.takeWhile_append_of_pos hne,
    List.takeWhile_cons_of_neg (by simp), List.append_nil]

structure Commitment where
  txn : Nat
  number : Nat
  sql : Bytes
  result : ResultSet

def Commitment.Of (c : Commitment) (w : World) : Prop :=
  ∃ e, w.executions c.number = some e ∧ e.sql = c.sql ∧ e.result = some (.ok c.result) ∧
    e.handle = some c.txn

def inCommitOrder (setting : Setting) : List (Nat × Bytes) → Contents →
    List (Outcome ResultSet) × Contents
  | [], m => ([], m)
  | (j, sql) :: rest, m =>
    let r := serially setting j sql m
    let later := inCommitOrder setting rest r.2
    (r.1 :: later.1, later.2)

/-- A history of statements that were not disturbed in what they read is serial in
the order of the commits. -/
theorem undisturbed_history_serial (h : setting.Reaches w) (hb : w.sys.begins < 2 ^ 64 - 1)
    {before : List Nat} {history : List Commitment}
    (hcommits : w.sys.commits = before ++ history.map Commitment.txn) (hof : ∀ c ∈ history, c.Of w)
    (hundisturbed : ∀ c ∈ history, ∀ x, w.sys.txns c.txn = some x →
      Undisturbed setting c.number c.sql w.sys x (commitsBefore w.sys c.txn)) :
    inCommitOrder setting (history.map fun c => (c.number, c.sql)) (committedMap w.sys before) =
      (history.map fun c => .ok c.result, committedMap w.sys w.sys.commits) := by
  induction history generalizing before with
  | nil =>
    rw [hcommits]
    simp [inCommitOrder]
  | cons c history ih =>
    obtain ⟨⟨e, he, hsql, hr, ht⟩, hrest⟩ := List.forall_mem_cons.mp hof
    obtain ⟨hfirst, hlater⟩ := List.forall_mem_cons.mp hundisturbed
    rw [List.map_cons] at hcommits
    have hmem : c.txn ∈ w.sys.commits := by
      rw [hcommits]
      exact List.mem_append_right _ List.mem_cons_self
    have hinv := reaches_inv h hb
    obtain ⟨x, hx, -⟩ := hinv.committed.mp hmem
    have halone := hfirst x hx
    rw [commitsBefore_eq hcommits hinv.nodup, ← hsql] at halone
    have hserial := undisturbed_serial h hb he hr ht hx hcommits halone
    rw [hsql] at hserial
    have hsofar : w.sys.commits = (before ++ [c.txn]) ++ history.map Commitment.txn := by
      rw [hcommits, List.append_assoc]
      rfl
    have hnext := ih hsofar hrest hlater
    simp only [List.map_cons, inCommitOrder, hserial, hnext]

/-- Two INSERTs that overlap, into different tables. -/
def overlappingInserts : List Event :=
  executed 0 "CREATE TABLE t (a INT PRIMARY KEY);" 4 ++
    executed 1 "CREATE TABLE u (a INT PRIMARY KEY);" 4 ++
    [.start (ascii "INSERT INTO t VALUES (1);"), .advance 2] ++
    executed 3 "INSERT INTO u VALUES (1);" 6 ++ List.replicate 5 (.advance 2)

def overlappingHistory : List Commitment :=
  [⟨3, 3, ascii "INSERT INTO u VALUES (1);", .insert 1⟩,
    ⟨2, 2, ascii "INSERT INTO t VALUES (1);", .insert 1⟩]

theorem undisturbed_history_serial_inserts : ∃ w,
    serialSetting.run .init overlappingInserts = some w ∧ w.sys.commits = [0, 1, 3, 2] ∧
    inCommitOrder serialSetting (overlappingHistory.map fun c => (c.number, c.sql))
        (committedMap w.sys [0, 1]) =
      (overlappingHistory.map fun c => .ok c.result, committedMap w.sys w.sys.commits) := by
  have hobserve : (serialSetting.run .init overlappingInserts).bind (fun w =>
      (w.executions 2).bind fun e => (w.executions 3).bind fun e' =>
      (w.sys.txns 2).bind fun x => (w.sys.txns 3).map fun x' => (e.result, e'.result,
        decide (e.sql = ascii "INSERT INTO t VALUES (1);" ∧ e.handle = some 2 ∧
          e'.sql = ascii "INSERT INTO u VALUES (1);" ∧ e'.handle = some 3 ∧
          x.seen = [0, 1] ∧ x'.seen = [0, 1] ∧ w.sys.commits = [0, 1, 3, 2] ∧ w.sys.begins = 4 ∧
          ∀ v ∈ writesOf w.sys 3, ¬ Consulted ((Session.execute serialSetting.codec
            (serialSetting.walks.order 2) (ascii "INSERT INTO t VALUES (1);")).trace direct
              (committedMap w.sys [0, 1])) v.1))) =
      some (some (.ok (.insert 1)), some (.ok (.insert 1)), true) := by decide +kernel
  obtain ⟨w, hrun, hw⟩ := Option.bind_eq_some_iff.mp hobserve
  obtain ⟨e, he, hw⟩ := Option.bind_eq_some_iff.mp hw
  obtain ⟨e', he', hw⟩ := Option.bind_eq_some_iff.mp hw
  obtain ⟨x, hx, hw⟩ := Option.bind_eq_some_iff.mp hw
  obtain ⟨x', hx', hw⟩ := Option.map_eq_some_iff.mp hw
  simp only [Prod.mk.injEq, decide_eq_true_eq] at hw
  obtain ⟨hresult, hresult', hsql, hhandle, hsql', hhandle', hseen, hseen', hcommits, hbegins,
    hwritten⟩ := hw
  refine ⟨w, hrun, hcommits, undisturbed_history_serial ⟨_, hrun⟩ (by omega) hcommits ?_ ?_⟩
  · exact List.forall_mem_cons.mpr ⟨⟨e', he', hsql', hresult', hhandle'⟩,
      List.forall_mem_singleton.mpr ⟨e, he, hsql, hresult, hhandle⟩⟩
  · refine List.forall_mem_cons.mpr ⟨fun y hy u hu hunseen => ?_,
      List.forall_mem_singleton.mpr fun y hy u hu hunseen => ?_⟩
    · -- the INSERT into u has seen all that committed before it
      cases hx'.symm.trans hy
      rw [commitsBefore, hcommits] at hu
      rw [hseen'] at hunseen
      exact absurd hu hunseen
    · cases hx.symm.trans hy
      rw [commitsBefore, hcommits] at hu
      have hthird : u = 3 := by
        rw [hseen] at hunseen
        have hu : u ∈ [0, 1, 3] := hu
        simp only [List.mem_cons, List.not_mem_nil, or_false] at hu hunseen
        omega
      rw [hthird, hseen]
      exact hwritten

end SpaceDB.Proofs
