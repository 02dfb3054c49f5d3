import SpaceDB.Proofs.Wraparound

namespace SpaceDB.Proofs
open Lib Storage

variable {n : NilValue} {s s' : Sys} {t u : Nat} {x y : Txn}

/-- In every state a run of any steps leads to, ScanPrefix in a live
transaction returns exactly the keys with the prefix that Get answers with a
value, in strictly ascending order. -/
theorem scanPrefix_agrees_get (h : Reaches n (fun _ => True) s) (hb : s.begins < 2 ^ 64 - 1)
    (hl : s.live t = some x) (p : Bytes) :
    ∃ es, s.step n (.op (.scanPrefix t p)) = some (s, some (.ok (.entries es))) ∧
      es.Pairwise (fun a b => a.key < b.key) ∧
      ∀ e, e ∈ es ↔ p <+: e.key ∧ e.value.isSome ∧
        s.step n (.op (.get t e.key)) = some (s, some (.ok (.value e.value))) := by
  have hbase := Reaches.base h (by omega)
  obtain ⟨es, hscan, hsort, hmem⟩ :=
    scanPrefix_spec (n := n) hbase.encoded hbase.tagged x.state p
  refine ⟨es, step_op (program_scanPrefix hl p) hscan, hsort, ?_⟩
  intro e
  rw [hmem]
  refine and_congr_right (fun _ => and_congr_right (fun _ => ?_))
  obtain ⟨r, hr, hget⟩ := get_spec (n := n) hbase.encoded hbase.tagged
    (hbase.ne_maxVersion hb (live_iff.mp hl).1) e.key
  rw [step_op (program_get hl e.key) hget]
  constructor
  · intro he
    rw [hr.unique he]
    rfl
  · intro heq
    simp only [Except.map, Option.some.injEq, Prod.mk.injEq, Except.ok.injEq,
      Answer.value.injEq] at heq
    rw [← heq.2]
    exact hr

theorem scanPrefix_agrees_get_zero : ∃ s results es,
    Sys.init.run .kept ([Op.begin, .set 0 [0] [], .set 0 [0, 0] [7], .delete 0 [1]].map .op) =
      some (s, results) ∧
      s.step .kept (.op (.scanPrefix 0 [0])) = some (s, some (.ok (.entries es))) ∧
      ∀ e, e ∈ es ↔ [0] <+: e.key ∧ e.value.isSome ∧
        s.step .kept (.op (.get 0 e.key)) = some (s, some (.ok (.value e.value))) := by
  obtain ⟨s, results, hrun, hf⟩ := run_observe .kept
    ([Op.begin, .set 0 [0] [], .set 0 [0, 0] [7], .delete 0 [1]].map .op)
    (fun s => some (s.begins, (s.live 0).isSome)) (1, true) (by decide +kernel)
  simp only [Option.some.injEq, Prod.mk.injEq] at hf
  obtain ⟨x, hl⟩ := Option.isSome_iff_exists.mp hf.2
  obtain ⟨es, hscan, -, hmem⟩ := scanPrefix_agrees_get
    ⟨_, results, fun _ _ => trivial, hrun⟩ (by omega) hl [0]
  exact ⟨s, results, es, hrun, hscan, hmem⟩

/-- With the last version the upper bound of Get wraps to version 0, so that
Get finds nothing, while ScanPrefix finds the transaction's own write. -/
theorem scanPrefix_differs_at_last_version : ∃ s results,
    Sys.init.run .kept ((rounds 0 (2 ^ 64 - 2) ++ [Op.begin, .set (2 ^ 64 - 2) [1] [7],
      .scanPrefix (2 ^ 64 - 2) [], .get (2 ^ 64 - 2) [1]]).map .op) =
      some (s, results ++ [some (.ok (.handle ⟨maxVersion, []⟩)), some (.ok .unit),
        some (.ok (.entries [⟨[1], some [7]⟩])), some (.ok (.value none))]) := by
  exact rounds_results .kept (2 ^ 64 - 2) (by decide)
    [.begin, .set (2 ^ 64 - 2) [1] [7], .scanPrefix (2 ^ 64 - 2) [], .get (2 ^ 64 - 2) [1]]
    (by simp [handle])
    [some (.ok (.handle ⟨maxVersion, []⟩)), some (.ok .unit),
      some (.ok (.entries [⟨[1], some [7]⟩])), some (.ok (.value none))] (by decide +kernel)

end SpaceDB.Proofs
