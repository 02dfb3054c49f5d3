import SpaceDB.Proofs.Wraparound

namespace SpaceDB.Proofs
open Lib Storage

variable {n : NilValue} {s s' : Sys} {t u : Nat} {x y : Txn}

/-- ScanPrefix answers with the keys that have a value for the handle. -/
theorem Inv.scan_step (h : Inv s) (hl : s.live t = some x) (p : Bytes) :
    ∃ es, s.step n (.op (.scanPrefix t p)) = some (s, some (.ok (.entries es))) ∧
      es.Pairwise (fun a b => a.key < b.key) ∧
      ∀ e, e ∈ es ↔ p <+: e.key ∧ e.value.isSome ∧
        e.value = (lastWrite x.writes e.key).getD (s.database x.seen e.key) := by
  obtain ⟨es, hscan, hsort, hmem⟩ := scanPrefix_spec (n := n) h.encoded h.tagged x.state p
  refine ⟨es, step_op (program_scanPrefix hl p) hscan, hsort, ?_⟩
  intro e
  rw [hmem]
  refine and_congr_right (fun _ => and_congr_right (fun _ => ?_))
  constructor
  · intro he
    exact he.unique (h.reads hl e.key)
  · intro he
    rw [he]
    exact h.reads hl e.key

/-- A handle begun in `s₀` has the commits of `s₀` as its snapshot. -/
theorem seen_begun {s₀ s₁ : Sys} {r : Result} {steps : List Step} {results : List Result}
    (h₀ : Base s₀) (hb : s₁.begins < 2 ^ 64) (hbegin : s₀.step n (.op .begin) = some (s₁, r))
    (hrun : s₁.run n steps = some (s, results)) (hx : s.txns s₀.begins = some x) :
    x.seen = s₀.commits := by
  obtain ⟨next, hn⟩ := h₀.counts hbegin hb rfl
  obtain ⟨active, -, hstep⟩ := step_begin (n := n) h₀.encoded hn
  rw [hstep] at hbegin
  cases hbegin
  have hentry : (opened n s₀ ⟨next, active⟩).txns s₀.begins =
      some ⟨⟨next, active⟩, .live, [], s₀.commits⟩ := Function.update_self _ _ _
  obtain ⟨x', hx', -, hseen⟩ := run_snapshot (Nat.lt_succ_self _) hentry hrun
  rw [hx] at hx'
  cases hx'
  exact hseen

/-- Processes may die at any engine call. A transaction begun in `s₀` reads its
own writes and otherwise the database of the transactions whose Commit had
removed its marker by then, each of them as a whole. -/
theorem crash_atomicity {s₀ s₁ : Sys} {before after : List Step} {r : Result}
    {results₀ results : List Result} (hk₀ : ∀ st ∈ before, st.reliable)
    (hrun₀ : Sys.init.run n before = some (s₀, results₀))
    (hbegin : s₀.step n (.op .begin) = some (s₁, r)) (hk : ∀ st ∈ after, st.reliable)
    (hrun : s₁.run n after = some (s, results)) (hb : s.begins < 2 ^ 64 - 1)
    (hl : s.live s₀.begins = some x) :
    (∀ k, s.step n (.op (.get s₀.begins k)) =
      some (s, some (.ok (.value ((lastWrite x.writes k).getD (s.database s₀.commits k)))))) ∧
    (∀ p, ∃ es, s.step n (.op (.scanPrefix s₀.begins p)) = some (s, some (.ok (.entries es))) ∧
      es.Pairwise (fun a b => a.key < b.key) ∧
      ∀ e, e ∈ es ↔ p <+: e.key ∧ e.value.isSome ∧
        e.value = (lastWrite x.writes e.key).getD (s.database s₀.commits e.key)) ∧
    ∀ u y, u ≠ s₀.begins → s.txns u = some y →
      (∀ k, (recordAt s.store (.version k y.state.version)).isSome →
        (x.state.isVisible y.state.version = true ↔ u ∈ s₀.commits)) ∧
      (u ∈ s₀.commits → ∀ k ∈ y.writes.map Prod.fst,
        (recordAt s.store (.version k y.state.version)).isSome) := by
  have hb₁ := run_begins_le hrun
  have hb₀ := step_begins_le hbegin
  have h₀ : Inv s₀ := Reaches.inv (n := n) ⟨before, results₀, hk₀, hrun₀⟩ (by omega)
  have hplain : (Step.op .begin).reliable := trivial
  have h₁ : Inv s₁ := step_inv h₀ hplain hbegin (by omega)
  have h : Inv s := run_inv hk h₁ hrun (by omega)
  obtain ⟨hx, hst⟩ := live_iff.mp hl
  have hseen := seen_begun h₀.toBase (by omega) hbegin hrun hx
  rw [← hseen]
  refine ⟨fun k => h.get_step hb hl k, fun p => h.scan_step hl p, ?_⟩
  intro u y hu hy
  have hne : y.state.version ≠ x.state.version := fun heq => hu (h.handle_eq hy hx heq)
  refine ⟨?_, ?_⟩
  · intro k hrec
    constructor
    · intro hvis
      exact h.seen_of_visible hx hy hrec hvis hne
    · intro hin
      obtain ⟨z, hz, -, hvis⟩ := h.visible_of_seen hx hin
      rw [hy] at hz
      cases hz
      exact hvis
  · intro hin k hk
    rw [h.kept_of_committed hy ((h.seenIff hx hy).mp hin).1 k, Option.isSome_map]
    exact lastWrite_isSome hk

theorem crash_atomicity_commit : ∃ s results,
    Sys.init.run .emptied [.op .begin, .op (.set 0 [1] [7]), .crash (.commit 0) 3, .op .begin] =
      some (s, results) ∧
      s.step .emptied (.op (.get 1 [1])) = some (s, some (.ok (.value (some [7])))) := by
  obtain ⟨s₀, results₀, hrun₀, hf₀⟩ := run_observe .emptied
    [.op .begin, .op (.set 0 [1] [7]), .crash (.commit 0) 3]
    (fun s => some (s.begins, s.commits)) (1, [0]) (by decide +kernel)
  obtain ⟨s, results, hrun, hf⟩ := run_observe .emptied
    [.op .begin, .op (.set 0 [1] [7]), .crash (.commit 0) 3, .op .begin]
    (fun s => (s.live 1).map fun x =>
      ((lastWrite x.writes [1]).getD (s.database [0] [1]), s.begins))
    (some [7], 2) (by decide +kernel)
  obtain ⟨x, hl, hx⟩ := Option.map_eq_some_iff.mp hf
  simp only [Option.some.injEq, Prod.mk.injEq] at hf₀ hx
  have hsplit : Sys.init.run .emptied ([.op .begin, .op (.set 0 [1] [7]), .crash (.commit 0) 3] ++
      [.op .begin]) = some (s, results) := hrun
  obtain ⟨m, rs, rs', hrun₁, hlast, -⟩ := run_append.mp hsplit
  rw [hrun₀] at hrun₁
  cases hrun₁
  obtain ⟨s₁, r, rs, hbegin, hnil, -⟩ := run_cons.mp hlast
  have hget := (crash_atomicity (by simp [Step.reliable]) hrun₀ hbegin (by simp) hnil (by omega)
    (hf₀.1 ▸ hl)).1 [1]
  rw [hf₀.1, hf₀.2, hx.1] at hget
  exact ⟨s, results, hrun, hget⟩

/-- A transaction with the last version does not find what was committed before
it began. -/
theorem committed_write_missed_at_last_version : ∃ s results,
    Sys.init.run .kept ((rounds 0 (2 ^ 64 - 3) ++ [Op.begin, .set (2 ^ 64 - 3) [1] [7],
      .commit (2 ^ 64 - 3), .begin, .get (2 ^ 64 - 2) [1]]).map .op) =
      some (s, results ++ [some (.ok (.handle ⟨maxVersion - 1, []⟩)), some (.ok .unit),
        some (.ok .unit), some (.ok (.handle ⟨maxVersion, []⟩)), some (.ok (.value none))]) := by
  exact rounds_results .kept (2 ^ 64 - 3) (by decide)
    [.begin, .set (2 ^ 64 - 3) [1] [7], .commit (2 ^ 64 - 3), .begin, .get (2 ^ 64 - 2) [1]]
    (by simp [handle])
    [some (.ok (.handle ⟨maxVersion - 1, []⟩)), some (.ok .unit), some (.ok .unit),
      some (.ok (.handle ⟨maxVersion, []⟩)), some (.ok (.value none))] (by decide +kernel)

end SpaceDB.Proofs
