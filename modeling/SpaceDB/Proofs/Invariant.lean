import Mathlib.Data.Set.Finite.Lemmas
import SpaceDB.Proofs.Snapshots

namespace SpaceDB.Proofs
open Lib Storage

variable {n : NilValue} {s s' : Sys} {t u : Nat} {x y : Txn}

def Kept (store : Store) (x : Txn) : Prop :=
  ∀ k, recordAt store (.version k x.state.version) =
    (lastWrite x.writes k).map (fun value => some (encodeSlice value))

/-- What the store holds of a handle, by what has become of it. A lost handle
may have left anything, but its versions come with its marker. -/
def Stored (store : Store) (x : Txn) : Prop :=
  match x.status with
  | .live => (recordAt store (.txnActive x.state.version)).isSome ∧ Kept store x ∧
      ∀ k, (recordAt store (.txnWrite x.state.version k)).isSome = (lastWrite x.writes k).isSome
  | .committed => recordAt store (.txnActive x.state.version) = none ∧ Kept store x
  | .rolledBack => recordAt store (.txnActive x.state.version) = none ∧
      (∀ k, recordAt store (.version k x.state.version) = none) ∧
      ∀ k, recordAt store (.txnWrite x.state.version k) = none
  | .lost => ∀ k, (recordAt store (.version k x.state.version)).isSome →
      (recordAt store (.txnActive x.state.version)).isSome

/-- What the store says about the handles: of two versions of one key the
older one was no longer active when the newer one began. -/
structure Records (s : Sys) : Prop where
  stored : ∀ {t x}, s.txns t = some x → Stored s.store x
  owned : ∀ {k v}, (recordAt s.store (.version k v)).isSome →
    ∃ t x, s.txns t = some x ∧ x.state.version = v
  marked : ∀ {v t x}, (recordAt s.store (.txnActive v)).isSome → s.txns t = some x →
    v < x.state.version → v ∈ x.state.activeVersions
  chain : ∀ {k v u y}, (recordAt s.store (.version k v)).isSome → s.txns u = some y →
    (recordAt s.store (.version k y.state.version)).isSome → v < y.state.version →
    v ∉ y.state.activeVersions

structure Inv (s : Sys) : Prop extends Base s, Snapshots s, Records s

def SameAt (v : Version) (store store' : Store) : Prop :=
  ∀ key : MvccKey, key ≠ .nextVersion → key.versionField = v →
    recordAt store' key = recordAt store key

theorem Frame.sameAt {v w : Version} {store store' : Store} (h : Frame v store store')
    (hw : w ≠ v) : SameAt w store store' := by
  intro key _ hver
  exact h key (.inr (hver ▸ hw))

theorem SameAt.stored {store store' : Store} (h : SameAt x.state.version store store')
    (hx : Stored store x) : Stored store' x := by
  have hm := h (.txnActive x.state.version) (by simp) rfl
  have hv : ∀ k, recordAt store' (.version k x.state.version) =
      recordAt store (.version k x.state.version) := fun k => h _ (by simp) rfl
  have hw : ∀ k, recordAt store' (.txnWrite x.state.version k) =
      recordAt store (.txnWrite x.state.version k) := fun k => h _ (by simp) rfl
  unfold Stored Kept at *
  cases hst : x.status <;> simp only [hst, hm, hv, hw] at hx ⊢ <;> exact hx

theorem Stored.marker_of_live {store : Store} (h : Stored store x) (hl : x.status = .live) :
    (recordAt store (.txnActive x.state.version)).isSome := by
  unfold Stored at h
  rw [hl] at h
  exact h.1

/-- A version record that belongs to a handle whose marker is gone was
committed. -/
theorem Stored.committed {store : Store} {k : Bytes} (h : Stored store x)
    (hrec : (recordAt store (.version k x.state.version)).isSome)
    (hno : recordAt store (.txnActive x.state.version) = none) : x.status = .committed := by
  unfold Stored at h
  cases hst : x.status with
  | committed => rfl
  | live =>
    rw [hst] at h
    rw [hno] at h
    cases h.1
  | rolledBack =>
    rw [hst] at h
    rw [h.2.1 k] at hrec
    cases hrec
  | lost =>
    rw [hst] at h
    have := h k hrec
    rw [hno] at this
    cases this

theorem inv_init : Inv Sys.init := by
  refine ⟨base_init, snapshots_init, ?_, ?_, ?_, ?_⟩
  · intro t x h
    cases h
  · intro k v h
    cases h
  · intro v t x h
    cases h
  · intro k v u y h
    cases h

/-- A version in the snapshot of `y` that is older than `x` was active for `x`
too; a live handle is active for every younger one. -/
theorem Inv.mayCommit (h : Inv s) (hl : s.live t = some x) : MayCommit s t := by
  obtain ⟨hx, hst⟩ := live_iff.mp hl
  refine ⟨?_, x, hx, fun hy hlt => h.marked (h.marker hl) hy hlt⟩
  intro hin
  obtain ⟨z, hz, hcom⟩ := h.committed.mp hin
  rw [hx] at hz
  cases hz
  rw [hst] at hcom
  cases hcom

/-- Steps that only delete records, and whose handles still fit the store. -/
theorem Inv.shrink {new : List Nat} (h : Inv s) (hbase : Base s') (hc : Continues s s' new)
    (hnodup : new.Nodup) (hnew : ∀ u ∈ new, MayCommit s u)
    (hsome : ∀ {key}, (recordAt s'.store key).isSome → (recordAt s.store key).isSome)
    (hstored : ∀ {t x}, s'.txns t = some x → Stored s'.store x) : Inv s' := by
  refine ⟨hbase, h.toSnapshots.continue hc hnodup hnew, hstored, ?_, ?_, ?_⟩
  · intro k v hrec
    obtain ⟨u, y, hy, hv⟩ := h.owned (hsome hrec)
    obtain ⟨y', hy', hst⟩ := hc.kept hy
    exact ⟨u, y', hy', by rw [hst, hv]⟩
  · intro v u y' hm hy' hlt
    obtain ⟨y, hy, hst, -, -⟩ := hc.old hy'
    rw [hst] at hlt ⊢
    exact h.marked (hsome hm) hy hlt
  · intro k v u y' hv hy' hrec hlt
    obtain ⟨y, hy, hst, -, -⟩ := hc.old hy'
    rw [hst] at hrec hlt ⊢
    exact h.chain (hsome hv) hy (hsome hrec) hlt

theorem foldl_min_le {vs : List Version} {a v : Version} (h : a ≤ v ∨ v ∈ vs) :
    vs.foldl min a ≤ v := by
  induction vs generalizing a with
  | nil =>
    rcases h with h | h
    · exact h
    · cases h
  | cons w vs ih =>
    apply ih
    rcases h with h | h
    · exact .inl (le_trans (min_le_left a w) h)
    · rcases List.mem_cons.mp h with rfl | h
      · exact .inl (min_le_right a v)
      · exact .inr h

/-- The range of the write check reaches down to every invisible version. -/
theorem fromVersion_le {st : TransactionState} {v : Version} (h : st.isVisible v = false) :
    st.fromVersion ≤ v := by
  unfold TransactionState.isVisible at h
  split at h
  next hin => exact foldl_min_le (.inr hin)
  next hout =>
    have hlt : st.version < v := not_le.mp (of_decide_eq_false h)
    apply foldl_min_le
    left
    rw [Fin.lt_def] at hlt
    rw [Fin.le_def, Fin.val_add]
    exact le_trans (Nat.mod_le _ _) hlt

theorem exists_newest {store : Store} {k : Bytes} {v : Version}
    (h : (recordAt store (.version k v)).isSome) : ∃ w, Newest store k w :=
  Set.exists_max_image {v | (recordAt store (.version k v)).isSome} id (Set.toFinite _) ⟨v, h⟩

/-- The check looks at the newest version only. An older one that is active for
the writer would have been active for the owner of the newest one too. -/
theorem Inv.blocked_iff (h : Inv s) (hx : s.txns t = some x) {k : Bytes} :
    Blocked s.store x.state k ↔
      ∃ v, (recordAt s.store (.version k v)).isSome ∧ x.state.isVisible v = false := by
  constructor
  · intro hb
    obtain ⟨w, -, hw, hvis⟩ := hb
    exact ⟨w, hw.1, hvis⟩
  · intro hex
    obtain ⟨v, hv, hinv⟩ := hex
    obtain ⟨w, hw⟩ := exists_newest hv
    have hvw := hw.2 v hv
    refine ⟨w, le_trans (fromVersion_le hinv) hvw, hw, ?_⟩
    rw [Bool.eq_false_iff]
    intro hvis
    have hwx := visible_le hvis
    have hin : v ∈ x.state.activeVersions := by
      by_contra hout
      simp [TransactionState.isVisible, hout] at hinv
      exact absurd (le_trans hvw hwx) (not_le.mpr hinv)
    have hlt : v < w := by
      refine lt_of_le_of_ne hvw ?_
      intro heq
      simp [TransactionState.isVisible, ← heq, hin] at hvis
    obtain ⟨u, y, hy, rfl⟩ := h.owned hw.1
    have hno := h.chain hv hy hw.1 hlt
    rcases lt_or_eq_of_le hwx with hwx | hwx
    · exact hno (h.activeOnce hy hx hin hlt hwx)
    · exact hno (h.entry_eq hy hx hwx ▸ hin)

theorem visible_not_active {st : TransactionState} {v : Version} (h : st.isVisible v = true) :
    v ∉ st.activeVersions := by
  intro hin
  simp [TransactionState.isVisible, hin] at h

/-- Steps in which a marked handle stores a version of a key that its check has
found free. -/
theorem Inv.grow {k : Bytes} (h : Inv s) (hbase : Base s') (hc : Continues s s' [])
    (hx : s.txns t = some x) (hfree : ¬ Blocked s.store x.state k)
    (hrec : ∀ key, recordAt s'.store key = recordAt s.store key ∨
      (∃ j, key = .txnWrite x.state.version j) ∨ key = .version k x.state.version)
    (hstored : ∀ {t x}, s'.txns t = some x → Stored s'.store x) : Inv s' := by
  have hvis : ∀ {v}, (recordAt s.store (.version k v)).isSome → x.state.isVisible v = true := by
    intro v hv
    by_contra hno
    exact hfree ((h.blocked_iff hx).mpr ⟨v, hv, Bool.eq_false_iff.mpr hno⟩)
  have hmark : ∀ v, recordAt s'.store (.txnActive v) = recordAt s.store (.txnActive v) := by
    intro v
    rcases hrec (.txnActive v) with heq | ⟨j, hj⟩ | hk
    · exact heq
    · cases hj
    · cases hk
  have hold : ∀ {j v}, (recordAt s'.store (.version j v)).isSome →
      (recordAt s.store (.version j v)).isSome ∨ j = k ∧ v = x.state.version := by
    intro j v hv
    rcases hrec (.version j v) with heq | ⟨i, hi⟩ | hk
    · exact .inl (heq ▸ hv)
    · cases hi
    · cases hk
      exact .inr ⟨rfl, rfl⟩
  refine ⟨hbase, h.toSnapshots.continue hc .nil (by simp), hstored, ?_, ?_, ?_⟩
  · intro j v hv
    obtain ⟨u, y, hy, hver⟩ : ∃ u y, s.txns u = some y ∧ y.state.version = v := by
      rcases hold hv with hv | ⟨-, rfl⟩
      · exact h.owned hv
      · exact ⟨t, x, hx, rfl⟩
    obtain ⟨y', hy', hst⟩ := hc.kept hy
    exact ⟨u, y', hy', by rw [hst, hver]⟩
  · intro v u y' hm hy' hlt
    obtain ⟨y, hy, hst, -, -⟩ := hc.old hy'
    rw [hst] at hlt ⊢
    exact h.marked (hmark v ▸ hm) hy hlt
  · intro j v u y' hv hy' hrec hlt
    obtain ⟨y, hy, hst, -, -⟩ := hc.old hy'
    rw [hst] at hrec hlt ⊢
    rcases hold hrec with hyold | ⟨rfl, heq⟩
    · rcases hold hv with hvold | ⟨rfl, rfl⟩
      · exact h.chain hvold hy hyold hlt
      · exact absurd (visible_le (hvis hyold)) (not_le.mpr hlt)
    · have := h.entry_eq hy hx heq
      subst this
      rcases hold hv with hvold | ⟨-, rfl⟩
      · exact visible_not_active (hvis hvold)
      · exact absurd hlt (lt_irrefl _)

/-- The store part of a step that takes a new version: nothing but the counter
and possibly the marker of the new version changes. -/
theorem Records.advance {next : Version} (h : Inv s)
    (hused : ∀ v, Used s v → v < next)
    (hrec : ∀ key, key ≠ .nextVersion → key ≠ .txnActive next →
      recordAt s'.store key = recordAt s.store key)
    (hkept : ∀ {u y}, s.txns u = some y → ∃ y', s'.txns u = some y' ∧ y'.state = y.state)
    (hcase : ∀ {u y'}, s'.txns u = some y' → (∃ y, s.txns u = some y ∧ y'.state = y.state) ∨
      y'.state.version = next ∧ ∀ v, (recordAt s.store (.txnActive v)).isSome →
        v ∈ y'.state.activeVersions)
    (hstored : ∀ {t x}, s'.txns t = some x → Stored s'.store x) : Records s' := by
  have hver : ∀ k v, recordAt s'.store (.version k v) = recordAt s.store (.version k v) :=
    fun k v => hrec _ (by simp) (by simp)
  refine ⟨hstored, ?_, ?_, ?_⟩
  · intro k v hv
    obtain ⟨u, y, hy, hyv⟩ := h.owned (hver k v ▸ hv)
    obtain ⟨y', hy', hst⟩ := hkept hy
    exact ⟨u, y', hy', by rw [hst, hyv]⟩
  · intro v u y' hm hy' hlt
    by_cases hv : v = next
    · subst hv
      rcases hcase hy' with ⟨y, hy, hst⟩ | ⟨hst, -⟩
      · have := hused _ (.inl ⟨u, y, hy, rfl⟩)
        rw [hst] at hlt
        exact absurd (lt_trans hlt this) (lt_irrefl _)
      · rw [hst] at hlt
        exact absurd hlt (lt_irrefl _)
    · rw [hrec _ (by simp) (by simpa using hv)] at hm
      rcases hcase hy' with ⟨y, hy, hst⟩ | ⟨-, hall⟩
      · rw [hst] at hlt ⊢
        exact h.marked hm hy hlt
      · exact hall v hm
  · intro k v u y' hv hy' hrec hlt
    rw [hver] at hv hrec
    rcases hcase hy' with ⟨y, hy, hst⟩ | ⟨hst, -⟩
    · rw [hst] at hrec hlt ⊢
      exact h.chain hv hy hrec hlt
    · rw [hst] at hrec
      exact absurd (hused _ (.inr ⟨_, by simp, rfl, hrec⟩)) (lt_irrefl _)

end SpaceDB.Proofs
