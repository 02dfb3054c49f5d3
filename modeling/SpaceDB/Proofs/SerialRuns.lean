import SpaceDB.Proofs.BuiltPlans

namespace SpaceDB.Proofs
open Lib Storage Sql Engine

variable {s : Sys} {m : Contents} {setting : Setting} {w : World}

/-- A statement on a map has a result, an error or the panic of a join. -/
theorem serially_concludes (setting : Setting) (i : Nat) (sql : Bytes) (m : Contents) :
    Concludes (TextPanic sql) (fun _ => True) (serially setting i sql m).1 := by
  cases hplan : Session.plan sql with
  | error f =>
    have hordinary := plan_ordinary sql
    rw [serially, hplan]
    rw [hplan] at hordinary
    cases f with
    | error e => trivial
    | panic message => exact hordinary.elim
  | ok node =>
    have hrun :=
      node_run_concludes setting.codec direct (setting.walks.perm i) (planned_text hplan) m
    change Concludes _ _
      ((Sql.execute (setting.walks.order i) node).run (tables setting.codec) m).1 at hrun
    simp only [serially, hplan]
    generalize (Sql.execute (setting.walks.order i) node).run (tables setting.codec) m = r at hrun ⊢
    rcases r with ⟨(e | message) | result, m'⟩
    · trivial
    · exact ⟨node, hplan, hrun⟩
    · trivial

theorem inTurn_cons {σ : Type} (f : Nat → Bytes → σ → Outcome ResultSet × σ) (i : Nat) (sql : Bytes)
    (sqls : List Bytes) (s : σ) : inTurn f i (sql :: sqls) s =
      if panicked (f i sql s).1 then ([(f i sql s).1], (f i sql s).2)
      else ((f i sql s).1 :: (inTurn f (i + 1) sqls (f i sql s).2).1,
        (inTurn f (i + 1) sqls (f i sql s).2).2) := rfl

/-- Runs of statements on two kinds of state that `R` keeps together, with `n`
statements to come; a panic leaves `S`. -/
theorem inTurn_alike {σ τ : Type} {f : Nat → Bytes → σ → Outcome ResultSet × σ}
    {g : Nat → Bytes → τ → Outcome ResultSet × τ} {R : Nat → σ → τ → Prop} {S : σ → τ → Prop}
    (hstep : ∀ {n s t} i sql, R (n + 1) s t → (f i sql s).1 = (g i sql t).1 ∧
      if panicked (f i sql s).1 then S (f i sql s).2 (g i sql t).2
      else R n (f i sql s).2 (g i sql t).2)
    {s : σ} {t : τ} (i : Nat) (sqls : List Bytes) (h : R sqls.length s t) :
    (inTurn f i sqls s).1 = (inTurn g i sqls t).1 ∧
      if (inTurn f i sqls s).1.any panicked then S (inTurn f i sqls s).2 (inTurn g i sqls t).2
      else R 0 (inTurn f i sqls s).2 (inTurn g i sqls t).2 := by
  induction sqls generalizing i s t with
  | nil => exact ⟨rfl, h⟩
  | cons sql sqls ih =>
    obtain ⟨hsame, hnext⟩ := hstep i sql h
    by_cases hpanic : panicked (f i sql s).1 = true
    · simpa [inTurn_cons, ← hsame, hpanic] using hnext
    · rw [if_neg hpanic] at hnext
      obtain ⟨hresults, hlast⟩ := ih (i + 1) hnext
      simp only [inTurn_cons, ← hsame, hpanic, Bool.false_eq_true, if_false, List.any_cons,
        Bool.false_or]
      exact ⟨congrArg _ hresults, hlast⟩

abbrev executeAll (setting : Setting) : Nat → List Bytes → Sys → List (Outcome ResultSet) × Sys :=
  inTurn setting.execute

abbrev seriallyAll (setting : Setting) :
    Nat → List Bytes → Contents → List (Outcome ResultSet) × Contents :=
  inTurn (serially setting)

/-- Statements one after the other, on the database and on its map. -/
theorem AtRest.executeAll (h : AtRest s m) (setting : Setting) (i : Nat) (sqls : List Bytes)
    (hb : s.begins + sqls.length < 2 ^ 64 - 1) :
    (executeAll setting i sqls s).1 = (seriallyAll setting i sqls m).1 ∧
      Holding ((executeAll setting i sqls s).2.database (executeAll setting i sqls s).2.commits)
        (seriallyAll setting i sqls m).2 ∧
      ((executeAll setting i sqls s).1.any panicked = false →
        Finished (executeAll setting i sqls s).2) := by
  obtain ⟨hresults, hlast⟩ := inTurn_alike (f := setting.execute) (g := serially setting)
    (R := fun n s m => AtRest s m ∧ s.begins + n < 2 ^ 64 - 1)
    (S := fun s m => Holding (s.database s.commits) m)
    (fun {n s m} i sql ⟨hrest, hbound⟩ => by
      obtain ⟨s', hexecute, hbegins, hholding, hnext⟩ := hrest.execute (by omega) setting i sql
      rw [hexecute]
      refine ⟨rfl, ?_⟩
      split_ifs with hpanic
      · exact hholding
      · refine ⟨hnext (Bool.eq_false_iff.mpr hpanic), ?_⟩
        dsimp only
        omega) i sqls ⟨h, hb⟩
  refine ⟨hresults, ?_⟩
  split_ifs at hlast with hpanic
  · exact ⟨hlast, fun hno => absurd hpanic (Bool.eq_false_iff.mp hno)⟩
  · exact ⟨hlast.1.holding, fun _ => hlast.1.finished⟩

/-- A panic among the results is that of one of the texts. -/
theorem seriallyAll_panics (i : Nat) (sqls : List Bytes) (m : Contents) {message : String}
    (h : .error (.panic message) ∈ (seriallyAll setting i sqls m).1) :
    ∃ sql ∈ sqls, TextPanic sql message := by
  induction sqls generalizing i m with
  | nil => cases h
  | cons sql sqls ih =>
    have hfirst : (serially setting i sql m).1 = .error (.panic message) →
        TextPanic sql message := by
      intro heq
      have hconcludes := serially_concludes setting i sql m
      rwa [heq] at hconcludes
    rw [seriallyAll, inTurn_cons] at h
    split_ifs at h
    · exact ⟨sql, List.mem_cons_self, hfirst (List.mem_singleton.mp h).symm⟩
    · rcases List.mem_cons.mp h with heq | hrest
      · exact ⟨sql, List.mem_cons_self, hfirst heq.symm⟩
      · obtain ⟨later, hmem, hpanic⟩ := ih (i + 1) _ hrest
        exact ⟨later, List.mem_cons_of_mem _ hmem, hpanic⟩

/-- As long as statements do not overlap, the database is a map: each has the
result that it has there, the transactions that have committed amount to the
map, and an error changes nothing. The panic of a join is the last result, and
changes nothing either. -/
theorem serial_statements_on_map (h : setting.Reaches w) (hfinished : Finished w.sys) (i : Nat)
    (sqls : List Bytes) (hb : w.sys.begins + sqls.length < 2 ^ 64 - 1) :
    (executeAll setting i sqls w.sys).1 =
        (seriallyAll setting i sqls (committedMap w.sys w.sys.commits)).1 ∧
      committedMap (executeAll setting i sqls w.sys).2 (executeAll setting i sqls w.sys).2.commits =
        (seriallyAll setting i sqls (committedMap w.sys w.sys.commits)).2 ∧
      ((executeAll setting i sqls w.sys).1.any panicked = false →
        Finished (executeAll setting i sqls w.sys).2) ∧
      ∀ message, .error (.panic message) ∈ (executeAll setting i sqls w.sys).1 →
        ∃ sql ∈ sqls, TextPanic sql message := by
  have hrest : AtRest w.sys (committedMap w.sys w.sys.commits) :=
    ⟨reaches_inv h (by omega), hfinished, holding_committed _ _⟩
  obtain ⟨hresults, hholding, hended⟩ := hrest.executeAll setting i sqls hb
  refine ⟨hresults, (holding_committed _ _).unique hholding, hended, fun message hpanic => ?_⟩
  rw [hresults] at hpanic
  exact seriallyAll_panics i sqls _ hpanic

/-- A table with a row, and every transaction ended. -/
theorem oneRow_run : ∃ w, serialSetting.run .init oneRow = some w ∧ Finished w.sys ∧
    w.sys.begins = 2 ∧ (committedMap w.sys w.sys.commits).entries.length = 2 := by
  have hobserve : (serialSetting.run .init oneRow).map (fun w => (allEnded w.sys, w.sys.begins,
      (committedMap w.sys w.sys.commits).entries.length)) = some (true, 2, 2) := by decide +kernel
  obtain ⟨w, hrun, hw⟩ := Option.map_eq_some_iff.mp hobserve
  simp only [Prod.mk.injEq] at hw
  obtain ⟨hended, hbegins, hentries⟩ := hw
  have hreaches : serialSetting.Reaches w := ⟨_, hrun⟩
  have hinv : Inv w.sys := reaches_inv hreaches (by omega)
  exact ⟨w, hrun, finished_of_allEnded hinv.bound hended, hbegins, hentries⟩

/-- From a table with a row: one row more, and the same row again. -/
theorem serial_statements_on_map_rows : ∃ w, serialSetting.run .init oneRow = some w ∧
    (committedMap w.sys w.sys.commits).entries.length = 2 ∧
    (executeAll serialSetting 2
      [ascii "INSERT INTO t VALUES (2);", ascii "INSERT INTO t VALUES (2);",
        ascii "SELECT * FROM t;"] w.sys).1 =
      (seriallyAll serialSetting 2 [ascii "INSERT INTO t VALUES (2);",
        ascii "INSERT INTO t VALUES (2);", ascii "SELECT * FROM t;"]
        (committedMap w.sys w.sys.commits)).1 := by
  obtain ⟨w, hrun, hfinished, hbegins, hentries⟩ := oneRow_run
  refine ⟨w, hrun, hentries, (serial_statements_on_map ⟨_, hrun⟩ hfinished 2 _ ?_).1⟩
  simp only [hbegins, List.length_cons, List.length_nil]
  decide

end SpaceDB.Proofs
