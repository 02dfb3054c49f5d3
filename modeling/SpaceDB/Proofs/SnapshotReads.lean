import SpaceDB.Proofs.Reachable

namespace SpaceDB.Proofs
open Lib Storage

variable {n : NilValue} {s s' : Sys} {t u : Nat} {x y : Txn}

theorem lastWrite_isSome {ws : List (Bytes × Slice)} {k : Bytes} (h : k ∈ ws.map Prod.fst) :
    (lastWrite ws k).isSome := by
  obtain ⟨w, hw, rfl⟩ := List.mem_map.mp h
  simp only [lastWrite, Option.isSome_map, List.find?_isSome]
  exact ⟨w, List.mem_reverse.mpr hw, by simp⟩

/-- Applying a list of writes leaves the last one of each key. -/
theorem applyWrites_eq (db : Bytes → Slice) (ws : List (Bytes × Slice)) (k : Bytes) :
    applyWrites db ws k = (lastWrite ws k).getD (db k) := by
  induction ws using List.reverseRecOn with
  | nil => rfl
  | append_singleton ws w ih =>
    rw [lastWrite_append]
    unfold applyWrites at ih ⊢
    rw [List.foldl_append, List.foldl_cons, List.foldl_nil, Function.update_apply, ih]
    by_cases hk : w.1 = k
    · rw [if_pos hk.symm, if_pos hk]
      rfl
    · rw [if_neg (Ne.symm hk), if_neg hk]

def writesOf (s : Sys) (u : Nat) : List (Bytes × Slice) := (s.txns u).elim [] Txn.writes

theorem writesOf_eq (hy : s.txns u = some y) : writesOf s u = y.writes := by
  rw [writesOf, hy]
  rfl

theorem database_append (us : List Nat) (u : Nat) (k : Bytes) :
    s.database (us ++ [u]) k = (lastWrite (writesOf s u) k).getD (s.database us k) := by
  unfold Sys.database
  rw [List.foldl_append, List.foldl_cons, List.foldl_nil, applyWrites_eq]
  rfl

/-- The database holds at a key what its last writer left there. -/
theorem database_last (us : List Nat) (k : Bytes) :
    ((∀ u ∈ us, lastWrite (writesOf s u) k = none) ∧ s.database us k = none) ∨
    ∃ us₁ u us₂, us = us₁ ++ u :: us₂ ∧ lastWrite (writesOf s u) k = some (s.database us k) ∧
      ∀ w ∈ us₂, lastWrite (writesOf s w) k = none := by
  induction us using List.reverseRecOn with
  | nil => exact .inl ⟨by simp, rfl⟩
  | append_singleton us u ih =>
    rw [database_append]
    cases hu : lastWrite (writesOf s u) k with
    | some value => exact .inr ⟨us, u, [], rfl, hu, by simp⟩
    | none =>
      rw [Option.getD_none]
      rcases ih with ⟨hall, hdb⟩ | ⟨us₁, w, us₂, rfl, hw, hall⟩
      · refine .inl ⟨?_, hdb⟩
        intro w hw
        rcases List.mem_append.mp hw with hw | hw
        · exact hall w hw
        · rw [List.mem_singleton.mp hw, hu]
      · refine .inr ⟨us₁, w, us₂ ++ [u], by simp, hw, ?_⟩
        intro i hi
        rcases List.mem_append.mp hi with hi | hi
        · exact hall i hi
        · rw [List.mem_singleton.mp hi, hu]

theorem Inv.kept_of_committed (h : Inv s) (hy : s.txns u = some y) (hc : y.status = .committed) :
    Kept s.store y := by
  have hst := h.stored hy
  unfold Stored at hst
  rw [hc] at hst
  exact hst.2

/-- A visible version of another handle was committed before the snapshot. -/
theorem Inv.seen_of_visible {k : Bytes} (h : Inv s) (hx : s.txns t = some x)
    (hy : s.txns u = some y) (hrec : (recordAt s.store (.version k y.state.version)).isSome)
    (hvis : x.state.isVisible y.state.version = true) (hne : y.state.version ≠ x.state.version) :
    u ∈ x.seen := by
  have hlt := lt_of_le_of_ne (visible_le hvis) hne
  have hout := visible_not_active hvis
  have hno : recordAt s.store (.txnActive y.state.version) = none := by
    by_contra hsome
    exact hout (h.marked (Option.isSome_iff_ne_none.mpr hsome) hx hlt)
  exact (h.seenIff hx hy).mpr ⟨(h.stored hy).committed hrec hno, hlt, hout⟩

theorem isVisible_iff {st : TransactionState} {v : Version} :
    st.isVisible v = true ↔ v ∉ st.activeVersions ∧ v ≤ st.version := by
  unfold TransactionState.isVisible
  split
  next hin => exact iff_of_false Bool.false_ne_true (fun h => h.1 hin)
  next hout => rw [decide_eq_true_iff, and_iff_right hout]

/-- Every handle in a snapshot is a committed one whose versions are visible. -/
theorem Inv.visible_of_seen (h : Inv s) (hx : s.txns t = some x) (hu : u ∈ x.seen) :
    ∃ y, s.txns u = some y ∧ y.status = .committed ∧ x.state.isVisible y.state.version = true := by
  obtain ⟨y, hy, hc⟩ := h.committed.mp ((h.seen hx).subset hu)
  obtain ⟨-, hlt, hout⟩ := (h.seenIff hx hy).mp hu
  exact ⟨y, hy, hc, isVisible_iff.mpr ⟨hout, le_of_lt hlt⟩⟩

/-- Of two writers of a key in one snapshot, the one with the newer version is
the later one in commit order. -/
theorem Inv.newer_is_later {i : Nat} {z : Txn} {k : Bytes} {us₁ us₂ : List Nat} (h : Inv s)
    (hx : s.txns t = some x) (hseen : x.seen = us₁ ++ u :: us₂) (hy : s.txns u = some y)
    (hyc : y.status = .committed) (hyrec : (recordAt s.store (.version k y.state.version)).isSome)
    (hz : s.txns i = some z) (hi : i ∈ us₁)
    (hzrec : (recordAt s.store (.version k z.state.version)).isSome) :
    z.state.version ≤ y.state.version := by
  by_contra hgt
  have hlt := not_le.mp hgt
  have hin : u ∈ z.seen := (h.seenIff hz hy).mpr ⟨hyc, hlt, h.chain hyrec hz hzrec hlt⟩
  have hlater := h.later.sublist (h.seen hx).sublist
  rw [hseen, List.pairwise_append] at hlater
  exact hlater.2.2 i hi u List.mem_cons_self z hz hin

/-- What a live handle reads. -/
theorem Inv.reads (h : Inv s) (hl : s.live t = some x) (k : Bytes) :
    Reads s.store x.state k ((lastWrite x.writes k).getD (s.database x.seen k)) := by
  obtain ⟨hx, hst⟩ := live_iff.mp hl
  have hstored := h.stored hx
  simp only [Stored, hst] at hstored
  have hown := hstored.2.1 k
  have hself : x.state.isVisible x.state.version = true := by
    rw [isVisible_iff]
    exact ⟨fun hin => lt_irrefl _ (h.activeBelow hx hin), le_refl _⟩
  cases hw : lastWrite x.writes k with
  | some value =>
    rw [hw] at hown
    exact .newest hown hself (decode_encodeSlice value) (fun w _ hvis => visible_le hvis)
  | none =>
    rw [hw] at hown
    rw [Option.getD_none]
    -- a visible version belongs to a writer of the key in the snapshot
    have hwriter : ∀ {v}, (recordAt s.store (.version k v)).isSome → x.state.isVisible v = true →
        ∃ u y, s.txns u = some y ∧ y.state.version = v ∧ u ∈ x.seen ∧
          lastWrite (writesOf s u) k ≠ none := by
      intro v hv hvis
      obtain ⟨u, y, hy, rfl⟩ := h.owned hv
      have hne : y.state.version ≠ x.state.version := by
        intro heq
        rw [heq, hown] at hv
        cases hv
      have hu := h.seen_of_visible hx hy hv hvis hne
      have hc := ((h.seenIff hx hy).mp hu).1
      refine ⟨u, y, hy, rfl, hu, ?_⟩
      rw [writesOf_eq hy]
      intro hnone
      rw [h.kept_of_committed hy hc k, hnone] at hv
      cases hv
    rcases database_last (s := s) x.seen k with ⟨hall, hdb⟩ | ⟨us₁, u, us₂, hseen, hlast, hall⟩
    · rw [hdb]
      refine .absent ?_
      intro v hv
      rw [Bool.eq_false_iff]
      intro hvis
      obtain ⟨u, y, -, -, hu, hne⟩ := hwriter hv hvis
      exact hne (hall u hu)
    · obtain ⟨y, hy, hc, hvis⟩ := h.visible_of_seen hx (u := u) (by rw [hseen]; simp)
      rw [writesOf_eq hy] at hlast
      have hrec := h.kept_of_committed hy hc k
      rw [hlast] at hrec
      refine .newest hrec hvis (decode_encodeSlice _) ?_
      intro w hwrec hwvis
      obtain ⟨i, z, hz, rfl, hi, hne⟩ := hwriter hwrec hwvis
      rw [hseen] at hi
      rcases List.mem_append.mp hi with hi | hi
      · exact h.newer_is_later hx hseen hy hc (by rw [hrec]; rfl) hz hi hwrec
      · rcases List.mem_cons.mp hi with rfl | hi
        · rw [hy] at hz
          cases hz
          exact le_refl _
        · exact absurd (hall i hi) hne

/-- Get answers with the handle's own last write of the key, and otherwise from
the database of its snapshot. -/
theorem Inv.get_step (h : Inv s) (hb : s.begins < 2 ^ 64 - 1) (hl : s.live t = some x) (k : Bytes) :
    s.step n (.op (.get t k)) =
      some (s, some (.ok (.value ((lastWrite x.writes k).getD (s.database x.seen k))))) := by
  obtain ⟨r, hr, hrun⟩ := get_spec (n := n) h.encoded h.tagged
    (h.ne_maxVersion hb (live_iff.mp hl).1) k
  rw [step_op (program_get hl k) hrun, hr.unique (h.reads hl k)]
  rfl

end SpaceDB.Proofs
