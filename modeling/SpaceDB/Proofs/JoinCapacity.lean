import SpaceDB.Proofs.RelationalStatements
import SpaceDB.Proofs.RowKeys

namespace SpaceDB.Proofs
open Lib Storage Sql Engine

section Sessions
variable {σ : Type} {h : Handler MvccCall MvccRet σ} {room : Prop} {Q : ResultSet → Prop}

/-- Commit and Rollback add no panic. -/
theorem SettledBy.finish {r : Outcome ResultSet} (hr : SettledBy room Q r) (s : σ) :
    SettledBy room Q ((Session.finish r).run h s).1 := by
  have hwp : (Session.finish r).wp (Rule.anything MvccCall MvccRet)
      (fun r' _ => SettledBy room Q r') () := by
    rcases r with (e | message) | result
    · intro rolledBack
      cases rolledBack <;> exact settledBy_error hr.room_of_error _
    · exact hr
    · intro committed
      cases committed with
      | ok u => exact hr
      | error e => exact settledBy_error hr.room_of_ok _
  obtain ⟨-, -, hend⟩ := Prog.wp_run (h := h) (w := s) (fun _ _ => True)
    (fun c P _ _ _ hc => ⟨(), trivial, hc _⟩) trivial hwp
  exact hend

/-- A session ends as the node of its statement does. -/
theorem session_settled (codec : Codec) {walk : Walk} (hwalk : ∀ l, (walk l).Perm l) {sql : Bytes}
    {node : Node} (hplan : Session.plan sql = .ok node) {s s' : σ}
    (hbegin : h .begin s = (.ok (), s')) :
    SettledBy (JoinsFit walk (overMvcc codec h) node s') (Fits node)
      ((Session.execute codec walk sql).run h s).1 := by
  have hbody := Prog.run_attempt h (ε := Fault) ((Sql.execute walk node).through
    fun c => (KVTransaction.call codec c).attempt) s'
  rw [Prog.run_through (h := h)] at hbody
  unfold Session.execute Session.transact
  rw [hplan]
  change SettledBy _ _ (((KvM.wrap _ _ (mvcc .begin)).bind _).run h s).1
  rw [Prog.run_bind_ok h (kv_wrap_ok (mvcc_run hbegin) _ _), Prog.bind_eq, Prog.run_bind_ok h hbody]
  exact (node_settled codec h hwalk (planned_text hplan) s').finish _

/-- Without a transaction a session ends with an error. -/
theorem session_unbegun (codec : Codec) (walk : Walk) {sql : Bytes} {node : Node}
    (hplan : Session.plan sql = .ok node) {s s' : σ} {e : Error}
    (hbegin : h .begin s = (.error e, s')) :
    ∃ e', ((Session.execute codec walk sql).run h s).1 = .error (.error e') := by
  unfold Session.execute Session.transact
  rw [hplan]
  change ∃ e', (((KvM.wrap _ _ (mvcc .begin)).bind _).run h s).1 = _
  rw [Prog.run_bind, KvM.wrap, Prog.run_mapError, run_mvcc, hbegin]
  exact ⟨_, rfl⟩

end Sessions

/-- A plan that the planner makes of a text panics exactly when a join comes to a
product of row counts that `make` does not take, whatever the database holds.
Otherwise each of its nodes returns the kind of result it has, with rows as wide
as their columns, or an error. -/
theorem plan_panics_iff_join_exceeds {sql : Bytes} {statement : Statement} {node : Node}
    (hparse : parse sql = .ok statement) (hbuild : build statement = .ok node) :
    (∀ m ∈ nodes node, ∀ (codec : Codec) (walks : Walks (Bytes × Expression)) (i : Nat) (σ : Type)
      (h : Handler MvccCall MvccRet σ) (s : σ),
      SettledBy (JoinsFit (walks.order i) (overMvcc codec h) m s) (Fits m)
        (((Sql.execute (walks.order i) m).through
          (fun c => (KVTransaction.call codec c).attempt)).run h s).1) ∧
    (∀ (codec : Codec) (walks : Walks (Bytes × Expression)) (i : Nat) (σ : Type)
      (h : Handler MvccCall MvccRet σ) (s : σ),
      match h .begin s with
      | (.ok (), s') => SettledBy (JoinsFit (walks.order i) (overMvcc codec h) node s') (Fits node)
          ((Session.execute codec (walks.order i) sql).run h s).1
      | (.error _, _) =>
        ∃ e, ((Session.execute codec (walks.order i) sql).run h s).1 = .error (.error e)) ∧
    ∀ (setting : Setting) (w : World), setting.Reaches w → ∀ j e, w.executions j = some e →
      e.sql = sql → ∀ message, e.rest = .fail (.panic message) → JoinPanic node message := by
  have hplan : Session.plan sql = .ok node := by
    unfold Session.plan
    rw [hparse]
    change (build statement).wrap _ _ = _
    rw [hbuild]
    rfl
  refine ⟨?_, ?_, ?_⟩
  · intro m hm codec walks i σ h s
    rw [Prog.run_through (h := h)]
    exact node_settled codec h (walks.perm i) (plannedStatement_nodes (planned_text hplan) hm) s
  · intro codec walks i σ h s
    split
    next s' hbegin => exact session_settled codec (walks.perm i) hplan hbegin
    next e s' hbegin => exact session_unbegun codec (walks.order i) hplan hbegin
  · intro setting w hw j e he hsql message hpanic
    have hrest := execution_wp
      (fun i => session_concludes setting.codec (setting.walks.perm i) hplan) hw he hsql
    rw [hpanic] at hrest
    exact hrest

def rowCount : Outcome ResultSet → Option Nat
  | .ok (.rows _ rows) => some rows.length
  | _ => none

def contentsAfter (sqls : List String) : Contents :=
  (seriallyAll serialSetting 0 (sqls.map ascii) .empty).2

/-- A table of two rows, joined with itself. -/
theorem plan_panics_iff_join_exceeds_two_rows : ∃ statement node,
    parse (ascii "SELECT * FROM t CROSS JOIN t;") = .ok statement ∧ build statement = .ok node ∧
      Ordinary (Fits node) (((Sql.execute id node).through
        (fun c => (KVTransaction.call serialCodec c).attempt)).run direct (contentsAfter
          ["CREATE TABLE t (a INT PRIMARY KEY);", "INSERT INTO t VALUES (1), (2);"])).1 := by
  have hparse : parse (ascii "SELECT * FROM t CROSS JOIN t;") =
      .ok (.select ⟨.join (.table (ascii "t")) (.table (ascii "t")) .joinCross none, [], none, none,
        none, [], none, none⟩) := by decide +kernel
  let m := contentsAfter ["CREATE TABLE t (a INT PRIMARY KEY);", "INSERT INTO t VALUES (1), (2);"]
  have hleft :
      rowCount ((Sql.execute id (.scan (ascii "t"))).run (overMvcc serialCodec direct) m).1 =
      some 2 := by decide +kernel
  have hright : rowCount ((Sql.execute id (.scan (ascii "t"))).run (overMvcc serialCodec direct)
      ((Sql.execute id (.scan (ascii "t"))).run (overMvcc serialCodec direct) m).2).1 = some 2 := by
    decide +kernel
  refine ⟨_, _, hparse, rfl, ?_⟩
  have hsettled := (plan_panics_iff_join_exceeds hparse rfl).1 _ List.mem_cons_self serialCodec
    (.same _) 0 _ direct m
  refine hsettled.ordinary ⟨trivial, fun hl => ⟨trivial, fun hr => ?_⟩⟩
  change (Sql.execute id _).run _ m = _ at hl
  change (Sql.execute id _).run _ _ = _ at hr
  rw [hl] at hleft hright
  rw [hr] at hright
  simp only [rowCount, Option.some.injEq] at hleft hright
  rw [hleft, hright]
  decide

section Numbers
variable {d : Relations} {r : Relation} {i : Sql.Int64}

def numbers (n : Nat) : List Sql.Int64 := (List.range n).map fun (i : Nat) => .wrap i

def insertNumbers (n : Nat) : Statement :=
  .insert ⟨ascii "t", [], (numbers n).map fun i => [⟨.integerLiteral, .int64 i⟩]⟩

theorem wrap_small {i : Nat} (h : i < 2 ^ 63) : (Sql.Int64.wrap i).val = i := by
  change ((i : Int) + 2 ^ 63) % 2 ^ 64 - 2 ^ 63 = i
  omega

theorem numbers_nodup {n : Nat} (hn : n ≤ 2 ^ 63) : (numbers n).Nodup := by
  refine List.Nodup.map_on (fun a ha b hb heq => ?_) List.nodup_range
  have hval := congrArg Subtype.val heq
  rw [wrap_small ((List.mem_range.mp ha).trans_le hn),
    wrap_small ((List.mem_range.mp hb).trans_le hn)] at hval
  exact Int.ofNat.inj hval

/-- The INSERT of the numbers has a text. -/
theorem insertNumbers_wellFormed {n : Nat} (hpos : 0 < n) (hn : n ≤ 2 ^ 63) :
    WellFormed (insertNumbers n) := by
  have hname : Identifier (ascii "t") :=
    ⟨⟨116, [], by decide, .inl (by decide), by simp⟩, by decide +kernel⟩
  refine ⟨⟨hname, nofun, ?_, ?_⟩, trivial⟩
  · simpa [numbers] using hpos.ne'
  · intro row hrow
    obtain ⟨i, hi, rfl⟩ := List.mem_map.mp hrow
    obtain ⟨k, hk, rfl⟩ := List.mem_map.mp hi
    refine ⟨List.cons_ne_nil _ _, List.forall_mem_singleton.mpr (.integer ?_)⟩
    rw [wrap_small ((List.mem_range.mp hk).trans_le hn)]
    exact Int.natCast_nonneg k

theorem rowOf_integer (i : Sql.Int64) :
    RowOf (tableOf "t") (.integer i) (rowOfInteger i) := ⟨rfl, rfl⟩

/-- One row more. -/
theorem createRow_integer (hr : d.find (ascii "t") = some r) (ht : r.table = tableOf "t")
    (hfresh : r.rows.find? (encodePrimaryKey (.integer i)) = none) :
    ∃ r', Relations.call serialCodec (.createRow (ascii "t") (rowOfInteger i)) d =
        (.ok (), d.set r') ∧
      r'.table = tableOf "t" ∧
      r'.rows = r.rows.insert (encodePrimaryKey (.integer i)) (rowOfInteger i) := by
  have hrow : RowOf r.table (.integer i) (rowOfInteger i) := ht ▸ rowOf_integer i
  refine ⟨r.put (.integer i) (rowOfInteger i) hrow, ?_, ht, rfl⟩
  have hget : d.getTable (ascii "t") = .ok (some r.table) := by
    rw [Relations.getTable, if_neg (by decide), hr]
    rfl
  have hcreate : d.createRow serialCodec (ascii "t") (rowOfInteger i) =
      .ok (d.set (r.put (.integer i) (rowOfInteger i) hrow)) := by
    unfold Relations.createRow
    rw [hget, hr]
    change Relation.accept r.table (rowOfInteger i) >>= _ = _
    rw [accept_ok hrow]
    change ite _ _ _ = _
    rw [hfresh]
    rfl
  rw [Relations.call, hcreate]
  rfl

/-- The loop of `InsertExecutor` over numbers that are not there yet. -/
theorem insertRows_numbers (is : List Sql.Int64) : ∀ {d : Relations} {r : Relation},
    d.find (ascii "t") = some r → r.table = tableOf "t" → is.Nodup →
    (∀ i ∈ is, r.rows.find? (encodePrimaryKey (.integer i)) = none) → ∀ k, ∃ d' r',
      (insertRows (ascii "t") (tableOf "t") [] k
        (is.map fun i => [⟨.integerLiteral, .int64 i⟩])).run (Relations.call serialCodec) d =
          (.ok (k + is.length), d') ∧
      d'.find (ascii "t") = some r' ∧ r'.table = tableOf "t" ∧
      r'.rows.entries.length = r.rows.entries.length + is.length := by
  induction is with
  | nil => exact fun hr ht _ _ k => ⟨_, _, rfl, hr, ht, rfl⟩
  | cons i is ih =>
    intro d r hr ht hnodup hfresh k
    obtain ⟨hnotin, hnodup⟩ := List.nodup_cons.mp hnodup
    obtain ⟨hi, hrest⟩ := List.forall_mem_cons.mp hfresh
    obtain ⟨r₁, hcall, ht₁, hrows₁⟩ := createRow_integer hr ht hi
    have hr₁ : (d.set r₁).find (ascii "t") = some r₁ := by
      rw [find_set, ht₁]
      rfl
    have hfresh₁ : ∀ j ∈ is, r₁.rows.find? (encodePrimaryKey (.integer j)) = none := by
      intro j hj
      rw [hrows₁, OrderedMap.find?_insert, if_neg]
      · exact hrest j hj
      · intro heq
        cases encodePrimaryKey_injective heq
        exact hnotin hj
    obtain ⟨d', r', hrun, hr', ht', hlength⟩ := ih hr₁ ht₁ hnodup hfresh₁ (k + 1)
    refine ⟨d', r', ?_, hr', ht', ?_⟩
    · rw [List.length_cons, ← Nat.add_assoc, Nat.add_right_comm, ← hrun]
      exact Prog.run_bind_ok _ (run_wrap_ok ((run_txn _ d).trans hcall) _ _) _
    · rw [hlength, hrows₁, OrderedMap.length_insert hi, List.length_cons]
      omega

end Numbers

section Statements
variable {setting : Setting} {d d' : Relations} {r : Relation} {sql : Bytes} {node : Node} {i : Nat}

theorem execute_ok {result : ResultSet} (hplan : Session.plan sql = .ok node)
    (hrun : (Sql.execute (setting.walks.order i) node).run (Relations.call setting.codec) d =
      (.ok result, d')) : d.execute setting i sql = (.ok result, d') := by
  simp only [Relations.execute, hplan, hrun]

theorem execute_panic {message : String} (hplan : Session.plan sql = .ok node)
    (hrun : (Sql.execute (setting.walks.order i) node).run (Relations.call setting.codec) d =
      (.error (.panic message), d')) : d.execute setting i sql = (.error (.panic message), d) := by
  simp only [Relations.execute, hplan, hrun]

theorem getTable_find (hr : d.find (ascii "t") = some r) :
    Relations.call setting.codec (.getTable (ascii "t")) d = (.ok (some r.table), d) := by
  rw [Relations.call, Relations.getTable, if_neg (by decide), hr]
  rfl

def createNumbers : Bytes := ascii "CREATE TABLE t (a INT PRIMARY KEY);"

def joinNumbers : Bytes := ascii "SELECT * FROM t CROSS JOIN t;"

theorem plan_joinNumbers : Session.plan joinNumbers =
    .ok (.nestedLoopJoin (.scan (ascii "t")) (.scan (ascii "t")) none false) := by decide +kernel

theorem execute_create (hd : d.find (ascii "t") = none) :
    d.execute serialSetting i createNumbers =
      (.ok (.createTable (ascii "t")), d.set (.new (tableOf "t"))) := by
  have hplan : Session.plan createNumbers = .ok (.createTable (tableOf "t")) := by decide +kernel
  apply execute_ok hplan
  rw [createNode_run]
  have hcreate : d.createTable serialCodec (tableOf "t") = .ok (d.set (.new (tableOf "t"))) := by
    have hget : d.getTable (tableOf "t").name = .ok none := by
      rw [Relations.getTable, if_neg (by decide)]
      change Except.ok ((d.find (ascii "t")).map _) = _
      rw [hd]
      rfl
    unfold Relations.createTable
    rw [hget]
    rfl
  change ((d.change (d.createTable serialCodec (tableOf "t"))).1.map _, _) = _
  change (_, (d.change (d.createTable serialCodec (tableOf "t"))).2) = _
  rw [hcreate]
  rfl

/-- The INSERT of the numbers succeeds, and all of them are there. -/
theorem execute_insert {n : Nat} (hpos : 0 < n) (hn : n ≤ 2 ^ 63)
    (hr : d.find (ascii "t") = some (.new (tableOf "t"))) : ∃ d' r,
      d.execute serialSetting i (print exactForm (insertNumbers n)) = (.ok (.insert n), d') ∧
        d'.find (ascii "t") = some r ∧ r.rows.entries.length = n := by
  have hplan : Session.plan (print exactForm (insertNumbers n)) = .ok (.insert (ascii "t") []
      ((numbers n).map fun i => [⟨.integerLiteral, .int64 i⟩])) := by
    unfold Session.plan
    rw [parse_spaced exactForm (insertNumbers_wellFormed hpos hn)]
    rfl
  obtain ⟨d', r', hrun, hr', -, hlength⟩ :=
    insertRows_numbers (numbers n) hr rfl (numbers_nodup hn) (fun _ _ => rfl) 0
  have hcount : (numbers n).length = n := by rw [numbers, List.length_map, List.length_range]
  rw [Nat.zero_add, hcount] at hrun
  refine ⟨d', r', execute_ok hplan ?_, hr', ?_⟩
  · unfold Sql.execute
    exact (Prog.run_bind_ok _ (loadTable_run (@getTable_find serialSetting _ _ hr)) _).trans
      ((Prog.run_bind_ok _ hrun _).trans rfl)
  · rw [hlength, hcount]
    exact Nat.zero_add n

/-- A join of the table with itself is too large when its square is. -/
theorem execute_join (hr : d.find (ascii "t") = some r)
    (hlarge : ¬ CapacityFits (r.rows.entries.length * r.rows.entries.length)) :
    d.execute serialSetting i joinNumbers = (.error (.panic capOutOfRange), d) := by
  have hscan : Relations.call serialSetting.codec (.scanTable r.table) d =
      (.ok (r.rows.entries.map Prod.snd), d) := by
    rw [Relations.call, Relations.scanTable, d.named hr, hr]
  have hrows : (Sql.execute (serialSetting.walks.order i) (.scan (ascii "t"))).run
      (Relations.call serialSetting.codec) d = _ := scanNode_run (getTable_find hr) hscan
  apply execute_panic plan_joinNumbers
  rw [joinNode_run hrows hrows, joinRows_capacity, List.length_map, if_neg hlarge]
  rfl

end Statements

/-- After `k` statements every transaction has ended, and the database is `d`. -/
structure RestsAt (setting : Setting) (w : World) (k : Nat) (d : Relations) : Prop where
  started : w.started = k
  begins : w.sys.begins ≤ k
  rest : ∃ m, AtRest w.sys m ∧ Represents setting.codec m d

/-- The next statement, alone from its start to its end. -/
theorem RestsAt.runs {setting : Setting} {w : World} {k : Nat} {d : Relations}
    (hc : Faithful setting.codec) (h : RestsAt setting w k d)
    (hk : k + 1 < 2 ^ 64 - 1) (sql : Bytes) :
    ∃ n w' e, setting.run w (.start sql :: List.replicate n (.advance k)) = some w' ∧
      w'.executions k = some e ∧ e.sql = sql ∧ e.result = some (d.execute setting k sql).1 ∧
      w'.sys.begins ≤ k + 1 ∧
      (panicked (d.execute setting k sql).1 = false →
        RestsAt setting w' (k + 1) (d.execute setting k sql).2) := by
  obtain ⟨rfl, hbegins, m, hrest, hd⟩ := h
  obtain ⟨s', hexecute, hle, -, hnext⟩ := hrest.execute (by omega) setting w.started sql
  obtain ⟨hsame, hd'⟩ := hd.execute hc w.started sql
  have hstart : (setting.start w sql).executions w.started = some ⟨sql, none,
      Session.execute setting.codec (setting.walks.order w.started) sql⟩ :=
    Function.update_self _ _ _
  obtain ⟨n, w', handle, hrun, he, hsys, hstarted⟩ := statement_runs setting _ hstart
  have hresult : (setting.execute w.started sql w.sys).1 = (d.execute setting w.started sql).1 := by
    rw [hexecute, hsame]
  change w'.sys = (setting.execute w.started sql w.sys).2 at hsys
  rw [hexecute] at hsys
  have hcount : w'.sys.begins ≤ w.started + 1 := by
    rw [hsys]
    exact hle.trans (Nat.succ_le_succ hbegins)
  refine ⟨n, w', _, hrun, he, rfl, ?_, hcount, fun hpanic => ⟨hstarted, hcount, _, ?_, hd'⟩⟩
  · rw [result_ofExcept]
    exact congrArg some hresult
  · rw [hsys]
    exact hnext (hsame ▸ hpanic)

theorem restsAt_init {setting : Setting} (hc : Faithful setting.codec) :
    ∃ d, RestsAt setting .init 0 d ∧ ∀ name, d.find name = none := by
  obtain ⟨d, hd⟩ := reaches_represents (w := .init) hc ⟨[], rfl⟩ (by decide) (List.prefix_refl _)
  have hrest : AtRest World.init.sys (committedMap World.init.sys []) :=
    ⟨inv_init, fun _ _ hx => (by cases hx), holding_committed _ _⟩
  refine ⟨d, ⟨rfl, le_rfl, _, hrest, hd⟩, ?_⟩
  exact fun name => Option.map_eq_none_iff.mp (hd.catalog name).symm

def joinRun (n a b c : Nat) : List Event :=
  (.start createNumbers :: List.replicate a (.advance 0)) ++
    ((.start (print exactForm (insertNumbers n)) :: List.replicate b (.advance 1)) ++
      .start joinNumbers :: List.replicate c (.advance 2))

/-- Enough rows in a table, and a join of the table with itself ends the process. -/
theorem join_of_numbers {n : Nat} (hpos : 0 < n) (hn : n ≤ 2 ^ 63)
    (hlarge : ¬ CapacityFits (n * n)) : ∃ a b c w e,
      serialSetting.run .init (joinRun n a b c) = some w ∧ w.executions 2 = some e ∧
      e.sql = joinNumbers ∧ e.result = some (.error (.panic capOutOfRange)) ∧ w.sys.begins ≤ 3 := by
  have hc : Faithful serialSetting.codec := serialCodec_faithful
  obtain ⟨d₀, hrests₀, hnone⟩ := restsAt_init hc
  obtain ⟨a, w₁, -, hrun₁, -, -, -, -, hrests₁⟩ := hrests₀.runs hc (by decide) createNumbers
  rw [execute_create (hnone _)] at hrests₁
  have hfind : (d₀.set (.new (tableOf "t"))).find (ascii "t") = some (.new (tableOf "t")) := by
    rw [find_set]
    rfl
  obtain ⟨d₂, r, hexecute, hr, hcount⟩ := execute_insert (i := 1) hpos hn hfind
  obtain ⟨b, w₂, -, hrun₂, -, -, -, -, hrests₂⟩ :=
    (hrests₁ rfl).runs hc (by decide) (print exactForm (insertNumbers n))
  rw [hexecute] at hrests₂
  obtain ⟨c, w₃, e, hrun₃, he, hsql, hresult, hbegins, -⟩ :=
    (hrests₂ rfl).runs hc (by decide) joinNumbers
  rw [execute_join hr (hcount ▸ hlarge)] at hresult
  refine ⟨a, b, c, w₃, e, ?_, he, hsql, hresult, hbegins⟩
  rw [joinRun, run_world_append, hrun₁, Option.bind_some, run_world_append, hrun₂]
  exact hrun₃

/-- 3,500,000 rows are enough: their square is more than 2^48 / 24. -/
theorem self_join_panics : ∃ a b c w e,
    serialSetting.run .init (joinRun 3500000 a b c) = some w ∧ w.executions 2 = some e ∧
    e.sql = joinNumbers ∧ e.result = some (.error (.panic capOutOfRange)) := by
  obtain ⟨a, b, c, w, e, hrun, he, hsql, hresult, -⟩ :=
    join_of_numbers (n := 3500000) (by decide) (by decide) (by decide)
  exact ⟨a, b, c, w, e, hrun, he, hsql, hresult⟩

/-- Whatever runs at the same time, a statement that has ended in a panic has met
a join that is too large on the database its transaction began with. The
transaction stays open. -/
theorem statements_panic_only_at_joins {setting : Setting} {w : World} (h : setting.Reaches w)
    {j : Nat} {e : Execution} {message : String} (he : w.executions j = some e)
    (hr : e.result = some (.error (.panic message))) :
    ∃ node, Session.plan e.sql = .ok node ∧ JoinPanic node message ∧
      (w.sys.begins < 2 ^ 64 - 1 → ∃ t x, e.handle = some t ∧ w.sys.txns t = some x ∧
        x.status = .live ∧ ¬ JoinsFit (setting.walks.order j) (overMvcc setting.codec direct) node
          (committedMap w.sys x.seen)) := by
  obtain ⟨node, hplan, hjoin⟩ := reaches_concludes h he hr
  refine ⟨node, hplan, hjoin, fun hb => ?_⟩
  cases ht : e.handle with
  | none =>
    obtain ⟨f, hf, -⟩ := reaches_unplanned h hb he hr ht
    cases hplan.symm.trans hf
  | some t =>
    obtain ⟨x, hx, hstatus, ⟨hrun, -⟩ | ⟨f, hf, hconflict⟩⟩ := reaches_returned h hb he hr ht
    · refine ⟨t, x, rfl, hx, hstatus, fun hfits => ?_⟩
      have hsettled := session_settled setting.codec (setting.walks.perm j) hplan
        (h := direct) (s := committedMap w.sys x.seen) rfl
      rw [hrun] at hsettled
      exact hsettled.ordinary hfits
    · obtain ⟨cause, rfl, -⟩ := hconflict
      cases hf

theorem statements_panic_only_at_joins_numbers : ∃ a b c w e x,
    serialSetting.run .init (joinRun 3500000 a b c) = some w ∧ w.executions 2 = some e ∧
    e.sql = joinNumbers ∧ ¬ JoinsFit (serialSetting.walks.order 2) (overMvcc serialCodec direct)
      (.nestedLoopJoin (.scan (ascii "t")) (.scan (ascii "t")) none false)
        (committedMap w.sys (Txn.seen x)) := by
  obtain ⟨a, b, c, w, e, hrun, he, hsql, hresult, hbegins⟩ :=
    join_of_numbers (n := 3500000) (by decide) (by decide) (by decide)
  obtain ⟨node, hplan, -, hopen⟩ := statements_panic_only_at_joins ⟨_, hrun⟩ he hresult
  obtain ⟨-, x, -, -, -, hlarge⟩ := hopen (by omega)
  rw [hsql, plan_joinNumbers] at hplan
  cases hplan
  exact ⟨a, b, c, w, e, x, hrun, he, hsql, hlarge⟩

end SpaceDB.Proofs
