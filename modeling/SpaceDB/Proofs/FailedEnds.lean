import SpaceDB.Proofs.SnapshotIsolation

namespace SpaceDB.Proofs
open Lib Storage

variable {n : NilValue} {s s' : Sys} {t u : Nat} {x y : Txn}

section Keys

variable {v : Version} {k : Bytes} {ks : List Bytes}

theorem txnWrite_mem_take_commitKeys {j : Nat} :
    .txnWrite v k ∈ (commitKeys v ks).take j ↔ k ∈ ks.take j := by
  induction ks generalizing j with
  | nil =>
    cases j <;> simp [commitKeys]
  | cons k' ks ih =>
    cases j with
    | zero => simp
    | succ j =>
      change _ ∈ (.txnWrite v k' :: commitKeys v ks).take (j + 1) ↔ _
      simp [ih]

theorem version_not_mem_commitKeys : .version k v ∉ commitKeys v ks := by
  rw [mem_commitKeys]
  simp

/-- A cut through the keys of a Rollback: a write record is gone before the
version it points at. -/
theorem mem_take_rollbackKeys {j : Nat} :
    (.txnWrite v k ∈ (rollbackKeys v ks).take j ↔ k ∈ ks.take ((j + 1) / 2)) ∧
      (.version k v ∈ (rollbackKeys v ks).take j ↔ k ∈ ks.take (j / 2)) := by
  induction ks generalizing j with
  | nil => cases j <;> simp [rollbackKeys]
  | cons k' ks ih =>
    have hcons : rollbackKeys v (k' :: ks) =
        .txnWrite v k' :: .version k' v :: rollbackKeys v ks := rfl
    rw [hcons]
    rcases j with _ | _ | j
    · simp
    · simp
    · rw [show (j + 2 + 1) / 2 = (j + 1) / 2 + 1 by omega, show (j + 2) / 2 = j / 2 + 1 by omega]
      simp [ih]

end Keys

def Listed (store : Store) (v : Version) : Prop :=
  ∀ k, (recordAt store (.txnWrite v k)).isSome → (recordAt store (.version k v)).isSome

/-- Some version record has no write record, so that no Rollback finds it. -/
def Orphaned (store : Store) (v : Version) : Prop :=
  ∃ k, (recordAt store (.version k v)).isSome ∧ recordAt store (.txnWrite v k) = none

section Stores

variable {v : Version} {k : Bytes} {ks : List Bytes} {store store' : Store}

theorem SameAt.listed (h : SameAt v store store') : Listed store' v ↔ Listed store v := by
  refine forall_congr' (fun k => ?_)
  rw [h (.txnWrite v k) (by simp) rfl, h (.version k v) (by simp) rfl]

theorem SameAt.orphaned (h : SameAt v store store') : Orphaned store' v ↔ Orphaned store v := by
  refine exists_congr (fun k => ?_)
  rw [h (.txnWrite v k) (by simp) rfl, h (.version k v) (by simp) rfl]

theorem Listed.written (h : Listed store v) (k : Bytes) (value : Slice) :
    Listed (written n v k value store) v := by
  intro j hj
  rw [recordAt_written] at hj ⊢
  by_cases hk : j = k
  · simp [hk]
  · rw [if_neg (by simp), if_neg (by simp [hk])] at hj
    rw [if_neg (by simp [hk]), if_neg (by simp)]
    exact h j hj

theorem Orphaned.of_written {value : Slice} (h : Orphaned (written n v k value store) v) :
    Orphaned store v := by
  obtain ⟨j, hver, hlist⟩ := h
  rw [recordAt_written, if_neg (by simp)] at hlist
  by_cases hk : j = k
  · simp [hk] at hlist
  · rw [if_neg (by simp [hk])] at hlist
    rw [recordAt_written, if_neg (by simp [hk]), if_neg (by simp)] at hver
    exact ⟨j, hver, hlist⟩

/-- A cut through a list of keys that has every write record before its version. -/
theorem Listed.eraseAll {keys : List MvccKey} (h : Listed store v)
    (hkeys : ∀ k, .version k v ∈ keys → .txnWrite v k ∈ keys) : Listed (eraseAll keys store) v := by
  intro k hk
  rw [recordAt_eraseAll] at hk ⊢
  by_cases hin : .txnWrite v k ∈ keys
  · rw [if_pos hin] at hk
    cases hk
  · rw [if_neg hin] at hk
    rw [if_neg (fun hv => hin (hkeys k hv))]
    exact h k hk

/-- A Commit that fails after some Delete has split a pair; one that fails at
once has done nothing. -/
theorem orphaned_commit {j : Nat} (hks : WriteSet store v ks) (h : Listed store v)
    (hj : j < (commitKeys v ks).length) :
    Orphaned (eraseAll ((commitKeys v ks).take j) store) v ↔ 0 < j ∨ Orphaned store v := by
  have hver : ∀ k, recordAt (eraseAll ((commitKeys v ks).take j) store) (.version k v) =
      recordAt store (.version k v) := by
    intro k
    rw [recordAt_eraseAll, if_neg
      (fun hin => version_not_mem_commitKeys (List.mem_of_mem_take hin))]
  constructor
  · intro hor
    obtain ⟨k, hk, hlist⟩ := hor
    rw [hver] at hk
    rw [recordAt_eraseAll] at hlist
    rcases Nat.eq_zero_or_pos j with rfl | hpos
    · exact .inr ⟨k, hk, by simpa using hlist⟩
    · exact .inl hpos
  · intro hor
    rcases hor with hpos | ⟨k, hk, hlist⟩
    · -- the first key of the write set has lost its write record
      match ks, j with
      | [], j + 1 => simp [commitKeys] at hj
      | k :: ks, j + 1 =>
        refine ⟨k, ?_, ?_⟩
        · rw [hver]
          exact h k ((hks.2 k).mp List.mem_cons_self)
        · rw [recordAt_eraseAll, if_pos (txnWrite_mem_take_commitKeys.mpr (by simp))]
    · refine ⟨k, by rw [hver]; exact hk, ?_⟩
      rw [recordAt_eraseAll, hlist]
      split <;> rfl

/-- A Rollback that fails splits a pair exactly when it fails at a version. -/
theorem orphaned_rollback {j : Nat} (hks : WriteSet store v ks) (h : Listed store v)
    (hj : j < (rollbackKeys v ks).length) :
    Orphaned (eraseAll ((rollbackKeys v ks).take j) store) v ↔ j % 2 = 1 ∨ Orphaned store v := by
  have hlen : (rollbackKeys v ks).length = 2 * ks.length + 1 := by
    simp [rollbackKeys, Nat.mul_comm]
  constructor
  · intro hor
    obtain ⟨k, hk, hlist⟩ := hor
    rw [recordAt_eraseAll] at hk hlist
    by_cases hin : .version k v ∈ (rollbackKeys v ks).take j
    · rw [if_pos hin] at hk
      cases hk
    · rw [if_neg hin] at hk
      by_cases hodd : j % 2 = 1
      · exact .inl hodd
      · rw [mem_take_rollbackKeys.2] at hin
        rw [if_neg] at hlist
        · exact .inr ⟨k, hk, hlist⟩
        · rwa [mem_take_rollbackKeys.1, show (j + 1) / 2 = j / 2 by omega]
  · intro hor
    rcases hor with hodd | ⟨k, hk, hlist⟩
    · have hm : j / 2 < ks.length := by omega
      have hk := (hks.2 _).mp (List.getElem_mem hm)
      refine ⟨ks[j / 2], ?_, ?_⟩
      · rw [recordAt_eraseAll, if_neg]
        · exact h _ hk
        · rw [mem_take_rollbackKeys.2]
          intro hin
          obtain ⟨i, hi, heq⟩ := List.mem_take_iff_getElem.mp hin
          have := (List.Nodup.getElem_inj_iff hks.1).mp heq
          omega
      · rw [recordAt_eraseAll, if_pos]
        rw [mem_take_rollbackKeys.1]
        exact List.mem_take_iff_getElem.mpr ⟨j / 2, by omega, rfl⟩
    · have hout : k ∉ ks := by
        intro hin
        have := (hks.2 k).mp hin
        rw [hlist] at this
        cases this
      refine ⟨k, ?_, ?_⟩
      · rw [recordAt_eraseAll, if_neg]
        · exact hk
        · rw [mem_take_rollbackKeys.2]
          exact fun hin => hout (List.mem_of_mem_take hin)
      · rw [recordAt_eraseAll, hlist]
        split <;> rfl

/-- A complete Rollback leaves the orphans and nothing else. -/
theorem rollback_leaves_orphans (hks : WriteSet store v ks) :
    (∀ k, recordAt (eraseAll (rollbackKeys v ks) store) (.version k v) = none) ↔
      ¬ Orphaned store v := by
  have hrec : ∀ k, recordAt (eraseAll (rollbackKeys v ks) store) (.version k v) =
      if (recordAt store (.txnWrite v k)).isSome then none else recordAt store (.version k v) := by
    intro k
    rw [recordAt_eraseAll]
    refine if_congr ?_ rfl rfl
    rw [mem_rollbackKeys, ← hks.2 k]
    simp
  unfold Orphaned
  rw [not_exists]
  refine forall_congr' (fun k => ?_)
  rw [hrec]
  cases hw : recordAt store (.txnWrite v k) with
  | none => simp [Option.isSome_iff_ne_none]
  | some w => simp

end Stores

theorem FaultEffect.frame {faults : Nat → Option Error} {o : Op} {r : Except Error Answer}
    (he : FaultEffect n s faults o s' r) (h : Base s) (hy : s.txns u = some y)
    (hu : changes o ≠ some u ∨ y.status ≠ .live) : s'.txns u = some y := by
  cases he with
  | op effect => exact effect.frame h hy hu
  | commit live writes lt fault first => exact hy
  | rollback live writes lt fault first => exact hy

/-- The records of a handle that an operation leaves alone. -/
theorem OpEffect.sameAt {o : Op} {r : Except Error Answer} (he : OpEffect n s o s' r) (h : Base s)
    (hb : s'.begins < 2 ^ 64) (hy : s.txns u = some y) (hu : changes o ≠ some u) :
    SameAt y.state.version s.store s'.store := by
  have hne : ∀ {t x}, changes o = some t → s.live t = some x →
      y.state.version ≠ x.state.version := by
    intro t x ho hl heq
    rw [h.handle_eq hy (live_iff.mp hl).1 heq] at hu
    exact hu ho
  cases he with
  | @begin next active counter markers =>
    have hlt : s.begins + 1 < 2 ^ 64 := hb
    have hver := (h.next (by omega) counter).2 _ (.inl ⟨u, y, hy, rfl⟩)
    intro key hkey heq
    rw [opened_store, recordAt_begun, if_neg, if_neg hkey]
    rintro rfl
    exact ne_of_lt hver heq.symm
  | get live => exact fun _ _ _ => rfl
  | scanPrefix live => exact fun _ _ _ => rfl
  | conflict live blocked => exact fun _ _ _ => rfl
  | write live free =>
    exact (frame_written _ _ _ s.store).sameAt (hne (changes_writeOp _ _ _) live)
  | commit live writes => exact (frame_eraseAll s.store commitKeys_own).sameAt (hne rfl live)
  | rollback live writes => exact (frame_eraseAll s.store rollbackKeys_own).sameAt (hne rfl live)

/-- An operation leaves the records of other versions alone, also when it fails. -/
theorem FaultEffect.sameAt {faults : Nat → Option Error} {o : Op} {r : Except Error Answer}
    (he : FaultEffect n s faults o s' r) (h : Base s) (hb : s'.begins < 2 ^ 64)
    (hy : s.txns u = some y) (hu : changes o ≠ some u) :
    SameAt y.state.version s.store s'.store := by
  have hne : ∀ {t x}, changes o = some t → s.live t = some x →
      y.state.version ≠ x.state.version := by
    intro t x ho hl heq
    rw [h.handle_eq hy (live_iff.mp hl).1 heq] at hu
    exact hu ho
  cases he with
  | op effect => exact effect.sameAt h hb hy hu
  | commit live writes lt fault first =>
    exact (frame_eraseAll s.store
      (fun key hk => commitKeys_own key (List.mem_of_mem_take hk))).sameAt
      (hne rfl live)
  | rollback live writes lt fault first =>
    exact (frame_eraseAll s.store
      (fun key hk => rollbackKeys_own key (List.mem_of_mem_take hk))).sameAt (hne rfl live)

/-- An attempt to end `t` that fails between a write record and the version it
points at: a Commit after its first Delete, or a Rollback at a version. -/
def SplitsPair (t : Nat) : Step × Result → Prop
  | (.faulty (.commit u) faults, some (.error _)) => u = t ∧ faults 0 = none
  | (.faulty (.rollback u) faults, some (.error _)) =>
    u = t ∧ ∃ m, faults (2 * m + 1) ≠ none ∧ ∀ i < 2 * m + 1, faults i = none
  | _ => False

theorem SplitsPair.changes {p : Step × Result} (h : SplitsPair t p) :
    changes (operation p.1) = some t := by
  unfold SplitsPair at h
  split at h
  · exact congrArg some h.1
  · exact congrArg some h.1
  · cases h

/-- What one step does to the pairs of a handle that is live after it. -/
structure PairStep (t : Nat) (p : Step × Result) (store store' : Store) (v : Version) : Prop where
  listed : Listed store' v
  splits : SplitsPair t p → Orphaned store' v
  orphaned : Orphaned store' v → SplitsPair t p ∨ Orphaned store v
  stays : (∀ k value, operation p.1 ≠ writeOp t k value) → Orphaned store v → Orphaned store' v

theorem PairStep.same {p : Step × Result} {store store' : Store} {v : Version}
    (hl : Listed store v) (hsame : SameAt v store store') (hno : ¬ SplitsPair t p) :
    PairStep t p store store' v :=
  ⟨hsame.listed.mpr hl, fun h => absurd h hno, fun h => .inr (hsame.orphaned.mp h),
    fun _ h => hsame.orphaned.mpr h⟩

/-- A complete operation keeps the pairs of a handle together. -/
theorem OpEffect.pairStep {o : Op} {r : Except Error Answer} {x' : Txn} {p : Step × Result}
    (he : OpEffect n s o s' r) (h : Base s) (hb : s'.begins < 2 ^ 64) (hl : s.live t = some x)
    (hl' : s'.live t = some x') (hlist : Listed s.store x.state.version) (hp : operation p.1 = o)
    (hno : ¬ SplitsPair t p) : PairStep t p s.store s'.store x.state.version := by
  obtain ⟨hx, hst⟩ := live_iff.mp hl
  obtain ⟨hx', hst'⟩ := live_iff.mp hl'
  by_cases ho : changes o = some t
  · have hself : ∀ {u y}, changes o = some u → s.live u = some y → u = t ∧ y = x := by
      intro u y hu hly
      rw [ho] at hu
      cases hu
      rw [hl] at hly
      exact ⟨rfl, (Option.some.inj hly).symm⟩
    cases he with
    | begin counter markers => cases ho
    | get live => cases ho
    | scanPrefix live => cases ho
    | conflict live blocked => exact .same hlist (fun _ _ _ => rfl) hno
    | write live free =>
      obtain ⟨rfl, rfl⟩ := hself (changes_writeOp _ _ _) live
      exact ⟨hlist.written _ _, fun hs => absurd hs hno, fun hor => .inr hor.of_written,
        fun hw => absurd hp (hw _ _)⟩
    | commit live writes =>
      obtain ⟨rfl, rfl⟩ := hself rfl live
      rw [record_commit_txns hx, Function.update_self] at hx'
      cases hx'
      cases hst'
    | rollback live writes =>
      obtain ⟨rfl, rfl⟩ := hself rfl live
      rw [record_rollback_txns hx, Function.update_self] at hx'
      cases hx'
      cases hst'
  · exact .same hlist (he.sameAt h hb hx ho) hno

theorem OpEffect.not_splitsPair {o : Op} {r : Except Error Answer} (he : OpEffect n s o s' r)
    (faults : Nat → Option Error) : ¬ SplitsPair t (.faulty o faults, some r) := by
  cases he with
  | @conflict u y k value live blocked => cases value <;> exact id
  | @write u y k value live free => cases value <;> exact id
  | _ => exact id

/-- A failed Commit or Rollback may split a pair, and nothing else does. -/
theorem FaultEffect.pairStep {faults : Nat → Option Error} {o : Op} {r : Except Error Answer}
    {x' : Txn} (he : FaultEffect n s faults o s' r) (h : Base s) (hb : s'.begins < 2 ^ 64)
    (hl : s.live t = some x) (hl' : s'.live t = some x') (hlist : Listed s.store x.state.version) :
    PairStep t (.faulty o faults, some r) s.store s'.store x.state.version := by
  by_cases ho : changes o = some t
  · cases he with
    | op effect => exact effect.pairStep h hb hl hl' hlist rfl (effect.not_splitsPair faults)
    | @commit u y ks j e live writes lt fault first =>
      cases ho
      rw [hl] at live
      cases live
      have horph := orphaned_commit writes hlist lt
      have hsplit : SplitsPair t (.faulty (.commit t) faults, some (.error e)) ↔ 0 < j := by
        constructor
        · intro hs
          by_contra hj
          rw [show j = 0 by omega] at fault
          exact fault hs.2
        · intro hj
          exact ⟨rfl, first 0 hj⟩
      refine ⟨hlist.eraseAll ?_, fun hs => horph.mpr (.inl (hsplit.mp hs)), ?_,
        fun _ hor => horph.mpr (.inr hor)⟩
      · intro k hin
        exact absurd (List.mem_of_mem_take hin) version_not_mem_commitKeys
      · intro hor
        rcases horph.mp hor with hj | hor
        · exact .inl (hsplit.mpr hj)
        · exact .inr hor
    | @rollback u y ks j e live writes lt fault first =>
      cases ho
      rw [hl] at live
      cases live
      have horph := orphaned_rollback writes hlist lt
      have hsplit : SplitsPair t (.faulty (.rollback t) faults, some (.error e)) ↔ j % 2 = 1 := by
        constructor
        · intro hs
          obtain ⟨-, m, hm, hfirst⟩ := hs
          -- both `j` and `2 * m + 1` are the first fault
          rcases lt_trichotomy j (2 * m + 1) with hlt | heq | hlt
          · exact absurd (hfirst j hlt) fault
          · omega
          · exact absurd (first _ hlt) hm
        · intro hj
          refine ⟨rfl, j / 2, ?_⟩
          rw [show 2 * (j / 2) + 1 = j by omega]
          exact ⟨fault, first⟩
      refine ⟨hlist.eraseAll ?_, fun hs => horph.mpr (.inl (hsplit.mp hs)), ?_,
        fun _ hor => horph.mpr (.inr hor)⟩
      · intro k hin
        rw [mem_take_rollbackKeys.2] at hin
        rw [mem_take_rollbackKeys.1]
        exact (List.take_subset_take_left _ (by omega)) hin
      · intro hor
        rcases horph.mp hor with hj | hor
        · exact .inl (hsplit.mpr hj)
        · exact .inr hor
  · exact .same hlist (he.sameAt h hb (live_iff.mp hl).1 ho) (fun hs => ho hs.changes)

/-- One step, with or without faults. -/
theorem Base.pairStep {p : Step × Result} {x' : Txn} (h : Base s)
    (hstep : s.step n p.1 = some (s', p.2)) (hb : s'.begins < 2 ^ 64) (hl : s.live t = some x)
    (hl' : s'.live t = some x') (hlist : Listed s.store x.state.version) :
    PairStep t p s.store s'.store x.state.version := by
  have hn := h.counts hstep hb
  obtain ⟨st, r⟩ := p
  cases st with
  | op o =>
    obtain ⟨a, -, he⟩ := op_effect h.encoded hn hstep
    exact he.pairStep h hb hl hl' hlist rfl id
  | crash o calls =>
    rw [crash_live_none hstep] at hl'
    cases hl'
  | faulty o faults =>
    obtain ⟨a, ha, he⟩ := fault_effect h.encoded hn hstep
    simp only at ha
    subst ha
    exact he.pairStep h hb hl hl' hlist

/-- A handle that is live after a step was live before it. -/
theorem Base.live_before {st : Step} {r : Result} {x' : Txn} (h : Base s)
    (hstep : s.step n st = some (s', r)) (hb : s'.begins < 2 ^ 64) (hy : s.txns t = some y)
    (hl' : s'.live t = some x') : s.live t = some y ∧ x'.state = y.state := by
  have hn := h.counts hstep hb
  obtain ⟨hx', hst'⟩ := live_iff.mp hl'
  have hstate : x'.state = y.state := by
    obtain ⟨z, hz, hs, -⟩ := step_snapshot (h.bound hy) hy hstep
    rw [hx'] at hz
    cases hz
    exact hs
  refine ⟨live_iff.mpr ⟨hy, ?_⟩, hstate⟩
  by_contra hdead
  have hkeep : s'.txns t = some y := by
    cases st with
    | op o =>
      obtain ⟨a, -, he⟩ := op_effect h.encoded hn hstep
      exact he.frame h hy (.inr hdead)
    | crash o calls =>
      rw [crash_live_none hstep] at hl'
      cases hl'
    | faulty o faults =>
      obtain ⟨a, -, he⟩ := fault_effect h.encoded hn hstep
      exact he.frame h hy (.inr hdead)
  rw [hx'] at hkeep
  cases hkeep
  exact hdead hst'

/-- `t` writes nothing after an attempt that has split a pair. -/
def Quiet (t : Nat) (past : List (Step × Result)) : Prop :=
  past.Pairwise fun p q => SplitsPair t p → ∀ k value, operation q.1 ≠ writeOp t k value

/-- Over a whole run: the handle has orphans exactly when an attempt has split a pair. -/
theorem Base.run_orphaned {past : List (Step × Result)} {x' : Txn} (h : Base s)
    (hx : s.txns t = some x) (hlist : Listed s.store x.state.version)
    (hnone : ¬ Orphaned s.store x.state.version) (hquiet : Quiet t past)
    (hrun : s.run n (past.map Prod.fst) = some (s', past.map Prod.snd))
    (hb : s'.begins < 2 ^ 64) (hl : s'.live t = some x') :
    Base s' ∧ x'.state = x.state ∧
      (Orphaned s'.store x.state.version ↔ ∃ p ∈ past, SplitsPair t p) := by
  have hend := run_history (n := n) (P := fun past m => m.begins < 2 ^ 64 → Base m ∧
    (∃ y, m.txns t = some y ∧ y.state = x.state) ∧
    ∀ y, m.live t = some y → Listed m.store x.state.version ∧
      (Quiet t past → (Orphaned m.store x.state.version ↔ ∃ p ∈ past, SplitsPair t p)))
    (fun _ => ⟨h, ⟨x, hx, rfl⟩, fun _ _ => ⟨hlist, fun _ => by simp [hnone]⟩⟩) ?_ hrun hb
  · obtain ⟨hbase, ⟨y, hy, hstate⟩, hall⟩ := hend
    have hy' := (live_iff.mp hl).1
    rw [hy] at hy'
    cases hy'
    exact ⟨hbase, hstate, (hall _ hl).2 hquiet⟩
  intro past m p m' ih hstep hb
  obtain ⟨hbase, ⟨y, hy, hstate⟩, hall⟩ := ih (lt_of_le_of_lt (step_begins_le hstep) hb)
  obtain ⟨y', hy', hs, -⟩ := step_snapshot (hbase.bound hy) hy hstep
  refine ⟨step_base hbase hstep hb, ⟨y', hy', hs.trans hstate⟩, ?_⟩
  intro z hl
  obtain ⟨hly, -⟩ := hbase.live_before hstep hb hy hl
  obtain ⟨hlist, horph⟩ := hall y hly
  have hpair := hbase.pairStep hstep hb hly hl (hstate ▸ hlist)
  rw [hstate] at hpair
  refine ⟨hpair.listed, ?_⟩
  intro hq
  obtain ⟨hq, -, hlast⟩ := List.pairwise_append.mp hq
  constructor
  · intro hor
    rcases hpair.orphaned hor with hp | hor
    · exact ⟨p, by simp, hp⟩
    · obtain ⟨q, hin, hs⟩ := (horph hq).mp hor
      exact ⟨q, by simp [hin], hs⟩
  · rintro ⟨q, hin, hs⟩
    rcases List.mem_append.mp hin with hin | hin
    · exact hpair.stays (hlast q hin p (by simp) hs) ((horph hq).mpr ⟨q, hin, hs⟩)
    · rw [List.mem_singleton.mp hin] at hs
      exact hpair.splits hs

/-- Any Delete call may fail. A transaction begun in `s₀` that ends with a
successful Rollback leaves no version exactly when none of its failed attempts
has split a pair; it may go on writing after a failed attempt that has not. -/
theorem rollback_clears_iff {s₀ s₁ : Sys} {r : Result} {past : List (Step × Result)}
    {faults : Nat → Option Error} (h₀ : Reaches n (fun _ => True) s₀)
    (hbegin : s₀.step n (.op .begin) = some (s₁, r))
    (hrun : s₁.run n (past.map Prod.fst) = some (s, past.map Prod.snd))
    (hquiet : Quiet s₀.begins past)
    (hend : s.step n (.faulty (.rollback s₀.begins) faults) = some (s', some (.ok .unit)))
    (hb : s.begins < 2 ^ 64) (hx : s'.txns s₀.begins = some x) :
    (∀ k, recordAt s'.store (.version k x.state.version) = none) ↔
      ∀ p ∈ past, ¬ SplitsPair s₀.begins p := by
  have hb₁ := run_begins_le hrun
  have hb₀ := step_begins hbegin
  rw [operation, if_pos rfl] at hb₀
  have hbase₀ : Base s₀ := Reaches.base h₀ (by omega)
  obtain ⟨next, hn, -⟩ := hbase₀.counter (by omega)
  obtain ⟨active, hactive, hopen⟩ := step_begin (n := n) hbase₀.encoded hn
  rw [hopen] at hbegin
  cases hbegin
  have hbase₁ := (OpEffect.begin (n := n) hn hactive).base hbase₀ (by omega)
  have hentry : (opened n s₀ ⟨next, active⟩).txns s₀.begins =
      some ⟨⟨next, active⟩, .live, [], s₀.commits⟩ := Function.update_self _ _ _
  -- the version is new, so there is no record of it but the marker
  have hfresh : ∀ key : MvccKey, key ≠ .nextVersion → key ≠ .txnActive next →
      key.versionField = next → recordAt (opened n s₀ ⟨next, active⟩).store key = none := by
    intro key h1 h2 hver
    rw [opened_store, recordAt_begun, if_neg h2, if_neg h1]
    by_contra hrec
    have hlt := (hbase₀.next (by omega) hn).2 _
      (.inr ⟨key, h1, hver, Option.isSome_iff_ne_none.mpr hrec⟩)
    exact lt_irrefl _ hlt
  cases hl : s.live s₀.begins with
  | none => simp [Sys.step, Sys.program, hl] at hend
  | some y =>
    obtain ⟨hbase, hstate, horph⟩ := hbase₁.run_orphaned hentry
      (fun k hk => by rw [hfresh (.txnWrite next k) (by simp) (by simp) rfl] at hk; cases hk)
      (fun hor => by
        obtain ⟨k, hk, -⟩ := hor
        rw [hfresh (.version k next) (by simp) (by simp) rfl] at hk
        cases hk) hquiet hrun hb hl
    obtain ⟨ks, hks, hd⟩ := rollback_faulty (n := n) hbase.encoded faults y.state
    rcases step_deleted (program_rollback hl) hd hend with ⟨-, rfl⟩ | ⟨e, j, hr, -⟩
    · rw [record_rollback_txns (live_iff.mp hl).1, Function.update_self] at hx
      cases hx
      rw [← hstate] at horph
      refine (rollback_leaves_orphans hks).trans ?_
      rw [horph]
      simp
    · cases hr

def failAt (j : Nat) (e : Error) (i : Nat) : Option Error := if i = j then some e else none

theorem rollback_clears_iff_commit_failed : ∃ s₁ s s' r e,
    Sys.init.step .kept (.op .begin) = some (s₁, r) ∧
      s₁.run .kept [.op (.set 0 [1] [7]), .faulty (.commit 0) (failAt 0 (.new "no space" []))] =
        some (s, [some (.ok .unit), some (.error e)]) ∧
      s.step .kept (.faulty (.rollback 0) (fun _ => none)) = some (s', some (.ok .unit)) ∧
      ∀ k, recordAt s'.store (.version k 1) = none := by
  let e : Error := .wrap "storage: deleting transaction-write key %x: %w"
    [.bytes (transactionWriteKey 1 [1]).encode] (.new "no space" [])
  let past : List (Step × Result) := [(.op (.set 0 [1] [7]), some (.ok .unit)),
    (.faulty (.commit 0) (failAt 0 (.new "no space" [])), some (.error e))]
  obtain ⟨s₁, results, hrun₁, hf⟩ := run_observe .kept [.op .begin]
    (fun s₁ => (s₁.run .kept (past.map Prod.fst)).bind fun q =>
      (q.1.step .kept (.faulty (.rollback 0) (fun _ => none))).bind fun q' =>
        (q'.1.txns 0).map fun x => (q.2, q'.2, x.state.version, q.1.begins))
    (past.map Prod.snd, some (.ok .unit), 1, 1) (by decide +kernel)
  obtain ⟨m, r, rs, hbegin, hnil, -⟩ := run_cons.mp hrun₁
  cases hnil
  obtain ⟨⟨s, results'⟩, hrun, hrest⟩ := Option.bind_eq_some_iff.mp hf
  obtain ⟨⟨s', r'⟩, hend, hlast⟩ := Option.bind_eq_some_iff.mp hrest
  obtain ⟨x, hx, heq⟩ := Option.map_eq_some_iff.mp hlast
  simp only [Prod.mk.injEq] at heq
  obtain ⟨rfl, rfl, hver, hbegins⟩ := heq
  have hno : ∀ p ∈ past, ¬ SplitsPair 0 p := by simp [past, SplitsPair, failAt]
  have hquiet : Quiet 0 past :=
    List.pairwise_of_forall_mem_list fun p hp q _ hs => absurd hs (hno p hp)
  have hclear := (rollback_clears_iff ⟨[], [], by simp, rfl⟩ hbegin hrun hquiet hend (by omega)
    hx).mpr hno
  rw [hver] at hclear
  exact ⟨s₁, s, s', r, e, hbegin, hrun, hend, hclear⟩

/-- The Commit fails at its last Delete, that of the marker. The Rollback that
follows returns nil, and the next transaction reads the write. -/
theorem rolled_back_write_read : ∃ s results,
    Sys.init.run .kept [.op .begin, .op (.set 0 [1] [7]),
      .faulty (.commit 0) (failAt 1 (.new "no space" [])), .op (.rollback 0), .op .begin,
      .op (.get 1 [1])] = some (s, results) ∧
      results = [some (.ok (.handle ⟨1, []⟩)), some (.ok .unit),
        some (.error (.wrap "storage: marking transaction %d committed: %w" [.number 1]
          (.new "no space" []))), some (.ok .unit), some (.ok (.handle ⟨2, []⟩)),
        some (.ok (.value (some [7])))] ∧
      recordAt s.store (.version [1] 1) = some (some [1, 7]) := by
  have h : (Sys.init.run .kept [.op .begin, .op (.set 0 [1] [7]),
      .faulty (.commit 0) (failAt 1 (.new "no space" [])), .op (.rollback 0), .op .begin,
      .op (.get 1 [1])]).map (fun q => (q.2, recordAt q.1.store (.version [1] 1))) =
    some ([some (.ok (.handle ⟨1, []⟩)), some (.ok .unit),
        some (.error (.wrap "storage: marking transaction %d committed: %w" [.number 1]
          (.new "no space" []))), some (.ok .unit), some (.ok (.handle ⟨2, []⟩)),
        some (.ok (.value (some [7])))], some (some [1, 7])) := by
    decide +kernel
  obtain ⟨⟨s, results⟩, hrun, heq⟩ := Option.map_eq_some_iff.mp h
  simp only [Prod.mk.injEq] at heq
  exact ⟨s, results, hrun, heq⟩

end SpaceDB.Proofs
