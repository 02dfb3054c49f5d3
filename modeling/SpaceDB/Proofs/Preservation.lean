import SpaceDB.Proofs.Invariant

namespace SpaceDB.Proofs
open Lib Storage

variable {n : NilValue} {s s' : Sys} {t u : Nat} {x y : Txn}

theorem lastWrite_append (ws : List (Bytes × Slice)) (k k' : Bytes) (value : Slice) :
    lastWrite (ws ++ [(k, value)]) k' = if k = k' then some value else lastWrite ws k' := by
  by_cases h : k = k' <;> simp [lastWrite, h]

/-- Steps that change one handle and only records of its version. -/
theorem Inv.stored_update {x' : Txn} {store : Store} {txns : Nat → Option Txn} (h : Inv s)
    (hx : s.txns t = some x) (hframe : Frame x.state.version s.store store)
    (htxns : txns = Function.update s.txns t (some x')) (hx' : Stored store x')
    (hy : txns u = some y) : Stored store y := by
  rw [htxns, Function.update_apply] at hy
  by_cases hu : u = t
  · rw [if_pos hu] at hy
    cases hy
    exact hx'
  · rw [if_neg hu] at hy
    have hne : y.state.version ≠ x.state.version := fun heq => hu (h.handle_eq hy hx heq)
    exact (hframe.sameAt hne).stored (h.stored hy)

theorem continues_update {x' : Txn} {new : List Nat} (hx : s.txns t = some x)
    (htxns : s'.txns = Function.update s.txns t (some x')) (hstate : x'.state = x.state)
    (hseen : x'.seen = x.seen) (hnew : ∀ u ∈ new, u = t)
    (hcom : x'.status = .committed ↔ x.status = .committed ∨ t ∈ new)
    (hc : s'.commits = s.commits ++ new) : Continues s s' new := by
  refine ⟨?_, ?_, hc⟩
  · intro u y' hy'
    rw [htxns, Function.update_apply] at hy'
    by_cases hu : u = t
    · subst hu
      rw [if_pos rfl] at hy'
      cases hy'
      exact ⟨x, hx, hstate, hseen, hcom⟩
    · rw [if_neg hu] at hy'
      have hout : u ∉ new := fun hin => hu (hnew u hin)
      exact ⟨y', hy', rfl, rfl, by simp [hout]⟩
  · intro u y hy
    rw [htxns, Function.update_apply]
    by_cases hu : u = t
    · subst hu
      rw [hx] at hy
      cases hy
      exact ⟨x', if_pos rfl, hstate⟩
    · exact ⟨y, by rw [if_neg hu, hy], rfl⟩

theorem continues_of_txns (htxns : s'.txns = s.txns) (hc : s'.commits = s.commits) :
    Continues s s' [] := by
  refine ⟨?_, ?_, by rw [hc, List.append_nil]⟩
  · intro u y hy
    rw [htxns] at hy
    exact ⟨y, hy, rfl, rfl, by simp⟩
  · intro u y hy
    rw [htxns]
    exact ⟨y, hy, rfl⟩

theorem continues_lose (s : Sys) : Continues s s.lose [] := by
  refine ⟨?_, ?_, by rw [List.append_nil]; rfl⟩
  · intro u y' hy'
    obtain ⟨y, hy, rfl⟩ := lose_txns hy'
    refine ⟨y, hy, ?_⟩
    by_cases hl : y.status = .live <;> simp [hl]
  · intro u y hy
    refine ⟨_, congrArg (Option.map _) hy, ?_⟩
    by_cases hl : y.status = .live <;> simp [hl]

theorem Inv.lose (h : Inv s) : Inv s.lose := by
  refine h.shrink h.toBase.lose (continues_lose s) .nil (by simp) id ?_
  intro u y' hy'
  obtain ⟨y, hy, rfl⟩ := lose_txns hy'
  have hst := h.stored hy
  by_cases hl : y.status = .live
  · rw [if_pos hl]
    intro k _
    exact hst.marker_of_live hl
  · rw [if_neg hl]
    exact hst

/-- Begin takes a version that nobody has. -/
theorem Inv.begin {next : Version} {active : List Version} (h : Inv s)
    (hbase : Base (opened n s ⟨next, active⟩)) (hb : s.begins < 2 ^ 64 - 1)
    (hn : NextIs s.store next)
    (hactive : ∀ v, v ∈ active ↔ (recordAt s.store (.txnActive v)).isSome) :
    Inv (opened n s ⟨next, active⟩) := by
  have hused := (h.next hb hn).2
  have hfresh : ∀ key : MvccKey, key ≠ .nextVersion → key.versionField = next →
      recordAt s.store key = none := by
    intro key hkey hver
    by_contra hne
    have hsome := Option.isSome_iff_ne_none.mpr hne
    exact lt_irrefl _ (hused next (.inr ⟨key, hkey, hver, hsome⟩))
  refine ⟨hbase, ?_, ?_⟩
  · refine h.toSnapshots.begin h.toBase ?_ ?_ ?_ ?_ rfl rfl
    · intro u y hy
      exact hused _ (.inl ⟨u, y, hy, rfl⟩)
    · intro v hv
      exact hused v (.inr ⟨.txnActive v, by simp, rfl, (hactive v).mp hv⟩)
    · intro u y v hy hv hlt
      exact h.marked ((hactive v).mp hv) hy hlt
    · intro u y hy hcom hin
      have hst := h.stored hy
      unfold Stored at hst
      rw [hcom] at hst
      have hm := (hactive _).mp hin
      rw [hst.1] at hm
      cases hm
  · refine Records.advance h hused ?_ ?_ ?_ ?_
    · intro key h1 h2
      rw [opened_store, recordAt_begun, if_neg h2, if_neg h1]
    · intro u y hy
      refine ⟨y, ?_, rfl⟩
      change Function.update _ _ _ _ = _
      rw [Function.update_apply, if_neg (ne_of_lt (h.bound hy)), hy]
    · intro u y' hy'
      rcases opened_txns hy' with hy | ⟨-, rfl⟩
      · exact .inl ⟨y', hy, rfl⟩
      · exact .inr ⟨rfl, fun v hv => (hactive v).mpr hv⟩
    · intro u y' hy'
      rcases opened_txns hy' with hy | ⟨-, rfl⟩
      · refine SameAt.stored ?_ (h.stored hy)
        intro key h1 h2
        rw [opened_store, recordAt_begun, if_neg, if_neg h1]
        intro hk
        subst hk
        exact ne_of_lt (hused _ (.inl ⟨u, y', hy, rfl⟩)) h2.symm
      · refine ⟨by simp, ?_, ?_⟩
        · intro k
          change recordAt (begun n next s.store) (.version k next) = none
          simp [hfresh (.version k next) (by simp) rfl]
        · intro k
          change (recordAt (begun n next s.store) (.txnWrite next k)).isSome = false
          simp [hfresh (.txnWrite next k) (by simp) rfl]

theorem recordAt_written_cases (v : Version) (k : Bytes) (value : Slice) (store : Store)
    (key : MvccKey) :
    recordAt (written n v k value store) key = recordAt store key ∨
      (∃ j, key = .txnWrite v j) ∨ key = .version k v := by
  rw [recordAt_written]
  by_cases h1 : key = .version k v
  · exact .inr (.inr h1)
  · by_cases h2 : key = .txnWrite v k
    · exact .inr (.inl ⟨k, h2⟩)
    · exact .inl ((if_neg h1).trans (if_neg h2))

/-- A write that was not refused is the newest version of its key. -/
theorem Inv.write {k : Bytes} {value : Slice} (h : Inv s) (hl : s.live t = some x)
    (hfree : ¬ Blocked s.store x.state k)
    (hbase : Base (({ s with store := written n x.state.version k value s.store } : Sys).wrote
      t k value)) :
    Inv
      (({ s with store := written n x.state.version k value s.store } : Sys).wrote t k value) := by
  obtain ⟨hx, hst⟩ := live_iff.mp hl
  have hstored := h.stored hx
  simp only [Stored, hst] at hstored
  obtain ⟨hmark, hkept, hlist⟩ := hstored
  refine h.grow hbase (continues_update hx (wrote_txns hx _ k value) rfl rfl (by simp) (by simp)
    (List.append_nil _).symm) hx hfree (recordAt_written_cases _ k value s.store) ?_
  intro u y hy
  refine h.stored_update hx (frame_written _ k value s.store) (wrote_txns hx _ k value) ?_ hy
  simp only [Stored, hst]
  refine ⟨?_, ?_, ?_⟩
  · change (recordAt (written n x.state.version k value s.store) _).isSome
    simpa using hmark
  · intro j
    change recordAt (written n x.state.version k value s.store) _ = _
    rw [recordAt_written, lastWrite_append]
    by_cases hj : k = j
    · simp [hj]
    · simp [hj, Ne.symm hj, hkept j]
  · intro j
    change (recordAt (written n x.state.version k value s.store) _).isSome = _
    rw [recordAt_written, lastWrite_append]
    by_cases hj : k = j
    · simp [hj]
    · simp [hj, Ne.symm hj, hlist j]

theorem isSome_of_eraseAll {keys : List MvccKey} {store : Store} {key : MvccKey}
    (h : (recordAt (eraseAll keys store) key).isSome) : (recordAt store key).isSome := by
  rw [recordAt_eraseAll] at h
  split at h
  · cases h
  · exact h

/-- Commit makes the versions of the handle visible to those that begin later. -/
theorem Inv.commit {ks : List Bytes} (h : Inv s) (hl : s.live t = some x)
    (hbase : Base (s.record (.commit t) (.ok .unit)
      (eraseAll (commitKeys x.state.version ks) s.store))) :
    Inv (s.record (.commit t) (.ok .unit) (eraseAll (commitKeys x.state.version ks) s.store)) := by
  obtain ⟨hx, hst⟩ := live_iff.mp hl
  have hstored := h.stored hx
  simp only [Stored, hst] at hstored
  have hcont : Continues s
      (s.record (.commit t) (.ok .unit) (eraseAll (commitKeys x.state.version ks) s.store)) [t] :=
    continues_update hx (record_commit_txns hx _) rfl rfl (by simp) (by simp) rfl
  refine h.shrink hbase hcont (List.nodup_singleton t) ?_ isSome_of_eraseAll ?_
  · intro u hu
    rw [List.mem_singleton.mp hu]
    exact h.mayCommit hl
  · intro u y hy
    refine h.stored_update hx (frame_eraseAll s.store commitKeys_own)
      (record_commit_txns hx _) ⟨?_, ?_⟩ hy
    · change recordAt (eraseAll _ s.store) _ = none
      rw [recordAt_eraseAll, if_pos (mem_commitKeys.mpr (.inr rfl))]
    · intro k
      change recordAt (eraseAll _ s.store) _ = _
      rw [recordAt_eraseAll, if_neg (by simp [mem_commitKeys])]
      exact hstored.2.1 k

/-- The write set of a live handle lists every key it has a version of. -/
theorem Inv.version_listed {ks : List Bytes} (h : Inv s) (hl : s.live t = some x)
    (hks : WriteSet s.store x.state.version ks) {k : Bytes}
    (hrec : (recordAt s.store (.version k x.state.version)).isSome) : k ∈ ks := by
  obtain ⟨hx, hst⟩ := live_iff.mp hl
  have hstored := h.stored hx
  simp only [Stored, hst] at hstored
  rw [hks.2, hstored.2.2 k]
  rw [hstored.2.1 k] at hrec
  simpa using hrec

/-- Rollback removes every version of the handle. -/
theorem Inv.rollback {ks : List Bytes} (h : Inv s) (hl : s.live t = some x)
    (hks : WriteSet s.store x.state.version ks)
    (hbase : Base (s.record (.rollback t) (.ok .unit)
      (eraseAll (rollbackKeys x.state.version ks) s.store))) :
    Inv (s.record (.rollback t) (.ok .unit)
      (eraseAll (rollbackKeys x.state.version ks) s.store)) := by
  obtain ⟨hx, hst⟩ := live_iff.mp hl
  have hcont : Continues s
      (s.record (.rollback t) (.ok .unit)
        (eraseAll (rollbackKeys x.state.version ks) s.store)) [] :=
    continues_update hx (record_rollback_txns hx _) rfl rfl (by simp) (by simp [hst])
      (List.append_nil _).symm
  refine h.shrink hbase hcont .nil (by simp) isSome_of_eraseAll ?_
  intro u y hy
  refine h.stored_update hx (frame_eraseAll s.store rollbackKeys_own)
    (record_rollback_txns hx _) ⟨?_, ?_, ?_⟩ hy
  · change recordAt (eraseAll _ s.store) _ = none
    rw [recordAt_eraseAll, if_pos (mem_rollbackKeys.mpr (.inr rfl))]
  · intro k
    change recordAt (eraseAll _ s.store) _ = none
    rw [recordAt_eraseAll]
    by_cases hk : k ∈ ks
    · rw [if_pos (mem_rollbackKeys.mpr (.inl ⟨k, hk, .inr rfl⟩))]
    · rw [if_neg (by simpa [mem_rollbackKeys] using hk)]
      by_contra hne
      exact hk (h.version_listed hl hks (Option.isSome_iff_ne_none.mpr hne))
  · intro k
    change recordAt (eraseAll _ s.store) _ = none
    rw [recordAt_eraseAll]
    by_cases hk : k ∈ ks
    · rw [if_pos (mem_rollbackKeys.mpr (.inl ⟨k, hk, .inl rfl⟩))]
    · rw [if_neg (by simpa [mem_rollbackKeys] using hk)]
      by_contra hne
      exact hk ((hks.2 k).mpr (Option.isSome_iff_ne_none.mpr hne))

/-- Every complete operation keeps the invariant. -/
theorem OpEffect.inv {o : Op} {r : Except Error Answer} (he : OpEffect n s o s' r) (h : Inv s)
    (hb : s'.begins < 2 ^ 64) : Inv s' := by
  have hbase := he.base h.toBase hb
  cases he with
  | begin counter markers =>
    have hlt : s.begins + 1 < 2 ^ 64 := hb
    exact h.begin hbase (by omega) counter markers
  | get live => exact h
  | scanPrefix live => exact h
  | conflict live blocked => exact h
  | write live free => exact h.write live free hbase
  | commit live writes => exact h.commit live hbase
  | rollback live writes => exact h.rollback live writes hbase

end SpaceDB.Proofs
