import SpaceDB.Proofs.Preservation

namespace SpaceDB.Proofs
open Lib Storage

variable {n : NilValue} {s s' : Sys} {t u : Nat} {x y : Txn}

/-- Changes to records of one lost handle that keep its versions marked. -/
theorem Inv.stored_lost {store : Store} (h : Inv s) (hl : s.live t = some x)
    (hframe : Frame x.state.version s.store store)
    (hx : ∀ k, (recordAt store (.version k x.state.version)).isSome →
      (recordAt store (.txnActive x.state.version)).isSome)
    (hy : s.lose.txns u = some y) : Stored store y := by
  have htxns : s.lose.txns =
      Function.update s.lose.txns t (some { x with status := .lost }) := by
    rw [← lose_live hl, Function.update_eq_self]
  exact h.lose.stored_update (lose_live hl) hframe htxns hx hy

/-- A process that dies inside Begin has used up a version. -/
theorem Inv.crash_begin {next : Version} {store : Store} (h : Inv s)
    (hbase : Base { s.lose with begins := s.begins + 1, store := store })
    (hb : s.begins < 2 ^ 64 - 1) (hn : NextIs s.store next)
    (hrec : ∀ key, key ≠ .nextVersion → key ≠ .txnActive next →
      recordAt store key = recordAt s.store key) :
    Inv { s.lose with begins := s.begins + 1, store := store } := by
  have hL := h.lose
  have hused := (hL.next hb hn).2
  have hcont : Continues s.lose { s.lose with begins := s.begins + 1, store := store } [] :=
    continues_of_txns rfl rfl
  refine ⟨hbase, hL.toSnapshots.continue hcont .nil (by simp),
    Records.advance hL hused hrec hcont.kept (fun hy => .inl ⟨_, hy, rfl⟩) ?_⟩
  intro u y hy
  refine SameAt.stored ?_ (hL.stored hy)
  intro key h1 h2
  refine hrec key h1 ?_
  intro hk
  subst hk
  exact ne_of_lt (hused _ (.inl ⟨u, y, hy, rfl⟩)) h2.symm

theorem Inv.crash_write {k : Bytes} {store : Store} (h : Inv s)
    (hbase : Base { s.lose with store := store }) (hl : s.live t = some x)
    (hfree : ¬ Blocked s.store x.state k) (hframe : Frame x.state.version s.store store)
    (hrec : ∀ key, recordAt store key = recordAt s.store key ∨
      (∃ j, key = .txnWrite x.state.version j) ∨ key = .version k x.state.version) :
    Inv { s.lose with store := store } := by
  refine h.lose.grow hbase (continues_of_txns rfl rfl) (lose_live hl) hfree hrec ?_
  intro u y hy
  refine h.stored_lost hl hframe ?_ hy
  intro _ _
  rcases hrec (.txnActive x.state.version) with heq | ⟨j, hj⟩ | hk
  · rw [heq]
    exact h.marker hl
  · cases hj
  · cases hk

theorem Inv.crash_erase {keys : List MvccKey} (h : Inv s)
    (hbase : Base { s.lose with store := eraseAll keys s.store }) (hl : s.live t = some x)
    (hkeys : ∀ key ∈ keys, key ≠ .nextVersion ∧ key.versionField = x.state.version)
    (hmark : .txnActive x.state.version ∈ keys → ∀ k,
      (recordAt s.store (.version k x.state.version)).isSome → .version k x.state.version ∈ keys) :
    Inv { s.lose with store := eraseAll keys s.store } := by
  refine h.lose.shrink hbase (continues_of_txns rfl rfl) .nil (by simp) isSome_of_eraseAll ?_
  intro u y hy
  refine h.stored_lost hl (frame_eraseAll s.store hkeys) ?_ hy
  intro k hk
  rw [recordAt_eraseAll] at hk ⊢
  by_cases hm : .txnActive x.state.version ∈ keys
  · split at hk
    · cases hk
    · next hout => exact absurd (hmark hm k hk) hout
  · rw [if_neg hm]
    exact h.marker hl

/-- Wherever a process dies, the invariant holds. -/
theorem CrashEffect.inv (he : CrashEffect n s s') (h : Inv s) (hb : s'.begins < 2 ^ 64) :
    Inv s' := by
  have hbase := he.base h.toBase hb
  cases he with
  | idle => exact h.lose
  | beginIdle =>
    exact h.lose.shrink hbase (continues_of_txns rfl rfl) .nil (by simp) id
      (fun hy => h.lose.stored hy)
  | beginCounted counter =>
    have hlt : s.begins + 1 < 2 ^ 64 := hb
    refine h.crash_begin hbase (by omega) counter ?_
    intro key h1 _
    rw [recordAt_insert, if_neg h1]
  | beginMarked counter =>
    have hlt : s.begins + 1 < 2 ^ 64 := hb
    refine h.crash_begin hbase (by omega) counter ?_
    intro key h1 h2
    rw [recordAt_begun, if_neg h2, if_neg h1]
  | @writeListed t x k live free =>
    refine h.crash_write hbase live free (frame_insert s.store _ ⟨by simp, rfl⟩) ?_
    intro key
    rw [recordAt_insert]
    by_cases hk : key = .txnWrite x.state.version k
    · exact .inr (.inl ⟨k, hk⟩)
    · exact .inl (if_neg hk)
  | @written t x k value live free =>
    exact h.crash_write hbase live free (frame_written _ k value s.store)
      (recordAt_written_cases _ k value s.store)
  | commitPart live writes =>
    refine h.crash_erase hbase live ?_ ?_
    · intro key hkey
      obtain ⟨k, -, rfl⟩ := List.mem_map.mp hkey
      exact ⟨by simp, rfl⟩
    · intro hm
      simp at hm
  | committed live writes =>
    exact (h.commit live ((OpEffect.commit (n := n) live writes).base h.toBase hb)).lose
  | rollbackPart live writes part =>
    refine h.crash_erase hbase live (fun key hk => rollbackKeys_own key (part.subset hk)) ?_
    intro hm k hk
    -- the marker is deleted last, so all the keys are gone by then
    rcases List.prefix_concat_iff.mp part with rfl | hpart
    · exact mem_rollbackKeys.mpr (.inl ⟨k, h.version_listed live writes hk, .inr rfl⟩)
    · have := hpart.subset hm
      simp at this

/-- The invariant along every step without faults. -/
theorem step_inv {st : Step} {r : Result} (h : Inv s) (hst : st.reliable)
    (hstep : s.step n st = some (s', r)) (hb : s'.begins < 2 ^ 64) : Inv s' := by
  have hn := h.counts hstep hb
  cases st with
  | op o =>
    obtain ⟨a, -, he⟩ := op_effect h.encoded hn hstep
    exact he.inv h hb
  | crash o calls =>
    exact (crash_effect h.encoded hn (fun _ _ hl => h.marker hl) hstep).inv h hb
  | faulty o faults => cases hst

theorem run_inv {steps : List Step} {results : List Result} (hk : ∀ st ∈ steps, st.reliable)
    (h : Inv s) (hrun : s.run n steps = some (s', results)) (hb : s'.begins < 2 ^ 64) : Inv s' := by
  refine run_induction (P := fun s => s.begins < 2 ^ 64 → Inv s) ?_ hk (fun _ => h) hrun hb
  intro s st s' r hst hinv hstep hb
  exact step_inv (hinv (lt_of_le_of_lt (step_begins_le hstep) hb)) hst hstep hb

theorem Reaches.inv (h : Reaches n Step.reliable s) (hb : s.begins < 2 ^ 64) : Inv s := by
  obtain ⟨steps, results, hk, hrun⟩ := h
  exact run_inv hk inv_init hrun hb

end SpaceDB.Proofs
