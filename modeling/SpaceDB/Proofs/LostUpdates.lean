import SpaceDB.Proofs.Wraparound

namespace SpaceDB.Proofs
open Lib Storage

variable {n : NilValue} {s s' : Sys} {t u : Nat} {x y : Txn}

/-- Of two committed writers of a key the one with the older version is in the
snapshot of the other. -/
theorem Inv.older_writer_seen {k : Bytes} (h : Inv s) (hx : s.txns t = some x)
    (hy : s.txns u = some y) (hxc : x.status = .committed) (hyc : y.status = .committed)
    (hxk : k ∈ x.writes.map Prod.fst) (hyk : k ∈ y.writes.map Prod.fst)
    (hlt : x.state.version < y.state.version) : t ∈ y.seen := by
  have hrec : ∀ {i z}, s.txns i = some z → z.status = .committed → k ∈ z.writes.map Prod.fst →
      (recordAt s.store (.version k z.state.version)).isSome := by
    intro i z hz hc hk
    rw [h.kept_of_committed hz hc k, Option.isSome_map]
    exact lastWrite_isSome hk
  exact (h.seenIff hy hx).mpr ⟨hxc, hlt, h.chain (hrec hx hxc hxk) hy (hrec hy hyc hyk) hlt⟩

/-- Of two transactions that wrote the same key and committed, one had
committed when the other began. -/
theorem committed_writers_ordered {steps : List Step} {results : List Result} {k : Bytes}
    (hk : ∀ st ∈ steps, st.plain) (hrun : Sys.init.run n steps = some (s, results))
    (hb : s.begins < 2 ^ 64) (hne : t ≠ u) (hx : s.txns t = some x) (hy : s.txns u = some y)
    (hxc : x.status = .committed) (hyc : y.status = .committed)
    (hxk : k ∈ x.writes.map Prod.fst) (hyk : k ∈ y.writes.map Prod.fst) :
    t ∈ y.seen ∨ u ∈ x.seen := by
  have h : Inv s := Reaches.inv (n := n) ⟨steps, results, fun st hst =>
    reliable_of_plain (hk st hst), hrun⟩ hb
  rcases lt_trichotomy x.state.version y.state.version with hlt | heq | hlt
  · exact .inl (h.older_writer_seen hx hy hxc hyc hxk hyk hlt)
  · exact absurd (h.handle_eq hx hy heq) hne
  · exact .inr (h.older_writer_seen hy hx hyc hxc hyk hxk hlt)

theorem committed_writers_ordered_sequence : ∃ s results x y,
    Sys.init.run .kept ([Op.begin, .set 0 [1] [7], .commit 0, .begin, .delete 1 [1],
      .commit 1].map .op) = some (s, results) ∧
      s.txns 0 = some x ∧ s.txns 1 = some y ∧ (0 ∈ y.seen ∨ 1 ∈ x.seen) := by
  obtain ⟨s, results, hrun, hf⟩ := run_observe .kept
    ([Op.begin, .set 0 [1] [7], .commit 0, .begin, .delete 1 [1], .commit 1].map .op)
    (fun s => some (s.txns 0, s.txns 1, s.begins))
    (some ⟨⟨1, []⟩, .committed, [([1], some [7])], []⟩,
      some ⟨⟨2, []⟩, .committed, [([1], none)], [0]⟩, 2) (by decide +kernel)
  simp only [Option.some.injEq, Prod.mk.injEq] at hf
  obtain ⟨hx, hy, hb⟩ := hf
  exact ⟨s, results, _, _, hrun, hx, hy, committed_writers_ordered (k := [1]) (plain_ops _) hrun
    (by omega) (by decide) hx hy rfl rfl (by simp) (by simp)⟩

/-- The transaction with the last version and the one after the counter has
wrapped do not see each other's writes as conflicts. -/
theorem overlapping_writers_after_wrap : ∃ s results x y,
    Sys.init.run .kept ((rounds 0 (2 ^ 64 - 2) ++ [Op.begin, .begin,
      .set (2 ^ 64 - 1) [1] [8], .set (2 ^ 64 - 2) [1] [7],
      .commit (2 ^ 64 - 2), .commit (2 ^ 64 - 1)]).map .op) = some (s, results) ∧
      s.txns (2 ^ 64 - 2) = some x ∧ s.txns (2 ^ 64 - 1) = some y ∧
      x.status = .committed ∧ y.status = .committed ∧
      [1] ∈ x.writes.map Prod.fst ∧ [1] ∈ y.writes.map Prod.fst ∧
      2 ^ 64 - 2 ∉ y.seen ∧ 2 ^ 64 - 1 ∉ x.seen := by
  obtain ⟨old, s, rs, results, hidle, hrun, hf⟩ := rounds_observe .kept (2 ^ 64 - 2) (by decide)
    [.begin, .begin, .set (2 ^ 64 - 1) [1] [8], .set (2 ^ 64 - 2) [1] [7],
      .commit (2 ^ 64 - 2), .commit (2 ^ 64 - 1)] (by simp [handle])
    (fun s _ => some (s.txns (2 ^ 64 - 2), s.txns (2 ^ 64 - 1)))
    (some ⟨⟨maxVersion, []⟩, .committed, [([1], some [7])], []⟩,
      some ⟨⟨0, [maxVersion]⟩, .committed, [([1], some [8])], []⟩) (by decide +kernel)
  simp only [Option.some.injEq, Prod.mk.injEq] at hf
  obtain ⟨hx, hy⟩ := hf
  refine ⟨_, rs ++ results, _, _, hrun, hidle.after_entry (by omega) hx,
    hidle.after_entry (by omega) hy, rfl, rfl, ?_, ?_, ?_, ?_⟩
  · simp [Txn.after]
  · simp [Txn.after]
  · exact hidle.not_seen (le_refl _) (by simp)
  · exact hidle.not_seen (by omega) (by simp)

end SpaceDB.Proofs
