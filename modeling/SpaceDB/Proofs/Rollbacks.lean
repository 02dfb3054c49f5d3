import SpaceDB.Proofs.StaleMarkers
import SpaceDB.Proofs.Wraparound

namespace SpaceDB.Proofs
open Lib Storage

variable {n : NilValue} {s s' q q' : Sys} {t u : Nat} {x y : Txn}

def writesBy (t : Nat) : Op → Bool
  | .set u _ _ | .delete u _ => decide (u = t)
  | _ => false

theorem writesBy_writeOp (t u : Nat) (k : Bytes) (value : Slice) :
    writesBy t (writeOp u k value) = decide (u = t) := by
  cases value <;> rfl

def Data (v : Version) (key : MvccKey) : Prop := ∃ k, key = .version k v ∨ key = .txnWrite v k

theorem Data.own {v : Version} {key : MvccKey} (h : Data v key) :
    key ≠ .nextVersion ∧ key.versionField = v := by
  obtain ⟨k, rfl | rfl⟩ := h <;> exact ⟨by simp, rfl⟩

theorem not_data_active (v w : Version) : ¬ Data v (.txnActive w) := by
  rintro ⟨k, h | h⟩ <;> cases h

theorem not_data_next (v : Version) : ¬ Data v .nextVersion := by
  rintro ⟨k, h | h⟩ <;> cases h

structure SameHandle (x y : Txn) : Prop where
  version : y.state.version = x.state.version
  active : ∀ v, v ∈ y.state.activeVersions ↔ v ∈ x.state.activeVersions
  status : y.status = x.status

theorem SameHandle.isVisible (h : SameHandle x y) (v : Version) :
    y.state.isVisible v = x.state.isVisible v := by
  rw [Bool.eq_iff_iff, isVisible_iff, isVisible_iff, h.active, h.version]

/-- `q` is `s` without the writes of `t`. -/
structure Erased (t : Nat) (s q : Sys) : Prop where
  begins : q.begins = s.begins
  handles : ∀ {u x}, s.txns u = some x → ∃ y, q.txns u = some y ∧ SameHandle x y
  records : ∀ {key}, (∀ x, s.txns t = some x → ¬ Data x.state.version key) →
    recordAt q.store key = recordAt s.store key
  hidden : ∀ {x key}, s.txns t = some x → Data x.state.version key → recordAt q.store key = none

theorem erased_init (t : Nat) : Erased t Sys.init Sys.init := by
  refine ⟨rfl, ?_, fun _ => rfl, ?_⟩
  · intro u x h
    cases h
  · intro x key h
    cases h

theorem Erased.live (h : Erased t s q) (hl : s.live u = some x) :
    ∃ y, q.live u = some y ∧ SameHandle x y := by
  obtain ⟨hx, hst⟩ := live_iff.mp hl
  obtain ⟨y, hy, hsame⟩ := h.handles hx
  exact ⟨y, live_iff.mpr ⟨hy, hsame.status.trans hst⟩, hsame⟩

/-- Without the writes of `t` there are only fewer records. -/
theorem Erased.isSome (h : Erased t s q) {key : MvccKey} (hrec : (recordAt q.store key).isSome) :
    (recordAt s.store key).isSome := by
  by_cases hdata : ∀ x, s.txns t = some x → ¬ Data x.state.version key
  · rwa [← h.records hdata]
  · push Not at hdata
    obtain ⟨x, hx, hkey⟩ := hdata
    rw [h.hidden hx hkey] at hrec
    cases hrec

theorem Erased.free {k : Bytes} (h : Erased t s q) (hs : Inv s) (hq : Inv q)
    (hl : s.live u = some x) (hly : q.live u = some y) (hsame : SameHandle x y)
    (hfree : ¬ Blocked s.store x.state k) : ¬ Blocked q.store y.state k := by
  intro hb
  obtain ⟨v, hrec, hinv⟩ := (hq.blocked_iff (live_iff.mp hly).1).mp hb
  rw [hsame.isVisible] at hinv
  exact hfree ((hs.blocked_iff (live_iff.mp hl).1).mpr ⟨v, h.isSome hrec, hinv⟩)

/-- Both runs change the entry of one handle. -/
theorem Erased.update {x' y' : Txn} (h : Erased t s q) (hx : s.txns u = some x)
    (hb : s'.begins = s.begins) (hbq : q'.begins = q.begins)
    (htxns : s'.txns = Function.update s.txns u (some x'))
    (htxnsq : q'.txns = Function.update q.txns u (some y')) (hsame : SameHandle x' y')
    (hver : x'.state.version = x.state.version)
    (hrec : ∀ {key}, (∀ x, s.txns t = some x → ¬ Data x.state.version key) →
      recordAt q'.store key = recordAt s'.store key)
    (hhid : ∀ {z key}, s.txns t = some z → Data z.state.version key →
      recordAt q'.store key = none) : Erased t s' q' := by
  have hversion : ∀ {w z'}, s'.txns w = some z' →
      ∃ z, s.txns w = some z ∧ z.state.version = z'.state.version := by
    intro w z' hz'
    rw [htxns, Function.update_apply] at hz'
    by_cases hw : w = u
    · rw [if_pos hw] at hz'
      cases hz'
      exact ⟨x, hw ▸ hx, hver.symm⟩
    · rw [if_neg hw] at hz'
      exact ⟨z', hz', rfl⟩
  refine ⟨by rw [hbq, hb, h.begins], ?_, ?_, ?_⟩
  · intro w z hz
    rw [htxns, Function.update_apply] at hz
    rw [htxnsq]
    by_cases hw : w = u
    · rw [if_pos hw] at hz
      cases hz
      exact ⟨y', by rw [hw, Function.update_self], hsame⟩
    · rw [if_neg hw] at hz
      obtain ⟨y, hy, hsame⟩ := h.handles hz
      exact ⟨y, by rw [Function.update_apply, if_neg hw, hy], hsame⟩
  · intro key hkey
    refine hrec (fun z hz => ?_)
    obtain ⟨z', hz', hsnap⟩ : ∃ z', s'.txns t = some z' ∧ z'.state.version = z.state.version := by
      by_cases ht : t = u
      · subst ht
        rw [hx] at hz
        cases hz
        exact ⟨x', by rw [htxns, Function.update_self], hver⟩
      · exact ⟨z, by rw [htxns, Function.update_apply, if_neg ht, hz], rfl⟩
    rw [← hsnap]
    exact hkey z' hz'
  · intro z' key hz' hdata
    obtain ⟨z, hz, hveq⟩ := hversion hz'
    exact hhid hz (hveq ▸ hdata)

/-- A write of `t` itself is not made in `q`. -/
theorem Erased.skip {o : Op} {r : Except Error Answer} (h : Erased t s q)
    (he : OpEffect n s o s' r) (ho : writesBy t o = true) : Erased t s' q := by
  cases he with
  | conflict live blocked => exact h
  | @write u x k value live free =>
    rw [writesBy_writeOp] at ho
    obtain rfl := of_decide_eq_true ho
    obtain ⟨hx, -⟩ := live_iff.mp live
    obtain ⟨y, hy, hsame⟩ := h.handles hx
    have htxnsq : q.txns = Function.update q.txns u (some y) := by
      rw [← hy, Function.update_eq_self]
    refine h.update hx rfl rfl (wrote_txns hx _ k value) htxnsq
      ⟨hsame.version, hsame.active, hsame.status⟩ rfl ?_ h.hidden
    intro key hkey
    rw [h.records hkey]
    change _ = recordAt (written n x.state.version k value s.store) key
    rw [recordAt_written, if_neg, if_neg]
    · rintro rfl
      exact hkey x hx ⟨k, .inr rfl⟩
    · rintro rfl
      exact hkey x hx ⟨k, .inl rfl⟩
  | _ => cases ho

/-- Begin in the run without the writes of `t`. -/
theorem Erased.begin {next : Version} {active : List Version} (h : Erased t s q) (hs : Inv s)
    (hq : Inv q) (hb : s.begins < 2 ^ 64 - 1) (hn : NextIs s.store next)
    (hactive : ∀ v, v ∈ active ↔ (recordAt s.store (.txnActive v)).isSome) :
    ∃ q' r, q.step n (.op .begin) = some (q', r) ∧ Erased t (opened n s ⟨next, active⟩) q' := by
  have hnq : NextIs q.store next := by
    unfold NextIs
    rw [h.records (fun x _ => not_data_next _)]
    exact hn
  obtain ⟨activeq, hactiveq, hstep⟩ := step_begin (n := n) hq.encoded hnq
  refine ⟨_, _, hstep, congrArg (· + 1) h.begins, ?_, ?_, ?_⟩
  · intro u x hx
    rcases opened_txns hx with hx | ⟨rfl, rfl⟩
    · obtain ⟨y, hy, hsame⟩ := h.handles hx
      refine ⟨y, ?_, hsame⟩
      change Function.update _ _ _ _ = _
      rw [Function.update_apply, if_neg (ne_of_lt (hq.bound hy)), hy]
    · refine ⟨⟨⟨next, activeq⟩, .live, [], q.commits⟩, ?_, rfl, ?_, rfl⟩
      · change Function.update _ _ _ _ = _
        rw [h.begins, Function.update_self]
      · intro v
        rw [hactiveq, hactive, h.records (fun x _ => not_data_active _ _)]
  · intro key hkey
    have hold : ∀ x, s.txns t = some x → ¬ Data x.state.version key := by
      intro x hx
      refine hkey x ?_
      change Function.update _ _ _ _ = _
      rw [Function.update_apply, if_neg (ne_of_lt (hs.bound hx)), hx]
    rw [opened_store, opened_store, recordAt_begun, recordAt_begun, h.records hold]
  · intro x key hx hdata
    obtain ⟨hkey, hver⟩ := hdata.own
    rw [opened_store, recordAt_begun, if_neg (fun heq => not_data_active _ _ (heq ▸ hdata)),
      if_neg hkey]
    rcases opened_txns hx with hx | ⟨-, rfl⟩
    · exact h.hidden hx hdata
    · -- the version is new, so there is no record of it
      by_contra hrec
      have hlt := (hq.next (by rw [h.begins]; exact hb) hnq).2 _
        (.inr ⟨key, hkey, hver, Option.isSome_iff_ne_none.mpr hrec⟩)
      exact lt_irrefl _ hlt

/-- Both runs end a handle, and delete the same records of other handles. -/
theorem Erased.finish {status : Status} {keys keysq : List MvccKey} (h : Erased t s q)
    (hx : s.txns u = some x) (hsame : SameHandle x y) (hb : s'.begins = s.begins)
    (hbq : q'.begins = q.begins)
    (htxns : s'.txns = Function.update s.txns u (some { x with status := status }))
    (htxnsq : q'.txns = Function.update q.txns u (some { y with status := status }))
    (hstore : s'.store = eraseAll keys s.store) (hstoreq : q'.store = eraseAll keysq q.store)
    (hkeys : ∀ {key}, (∀ x, s.txns t = some x → ¬ Data x.state.version key) →
      (key ∈ keysq ↔ key ∈ keys)) : Erased t s' q' := by
  refine h.update hx hb hbq htxns htxnsq ⟨hsame.version, hsame.active, rfl⟩ rfl ?_ ?_
  · intro key hkey
    rw [hstore, hstoreq, recordAt_eraseAll, recordAt_eraseAll, h.records hkey]
    exact if_congr (hkeys hkey) rfl rfl
  · intro z key hz hdata
    rw [hstoreq, recordAt_eraseAll, h.hidden hz hdata, ite_self]

/-- The write sets of the two runs. -/
theorem Erased.writeSet {ks ksq : List Bytes} (h : Erased t s q) (hs : Inv s)
    (hx : s.txns u = some x) (hu : u ≠ t) (hsame : SameHandle x y)
    (hks : WriteSet s.store x.state.version ks) (hksq : WriteSet q.store y.state.version ksq)
    (k : Bytes) : k ∈ ksq ↔ k ∈ ks := by
  rw [hks.2, hksq.2, hsame.version, h.records]
  intro z hz hdata
  exact hu (hs.handle_eq hx hz hdata.own.2)

/-- A write of another handle. -/
theorem Erased.write {k : Bytes} {value : Slice} (h : Erased t s q) (hs : Inv s) (hq : Inv q)
    (hl : s.live u = some x) (hu : u ≠ t) (hfree : ¬ Blocked s.store x.state k) :
    ∃ q' r, q.step n (.op (writeOp u k value)) = some (q', r) ∧
      Erased t
        (({ s with store := written n x.state.version k value s.store } : Sys).wrote u k value)
        q' := by
  obtain ⟨hx, -⟩ := live_iff.mp hl
  obtain ⟨y, hly, hsame⟩ := h.live hl
  obtain ⟨hy, -⟩ := live_iff.mp hly
  refine ⟨_, _, step_write hq.encoded hly (h.free hs hq hl hly hsame hfree) value, ?_⟩
  refine h.update hx rfl rfl (wrote_txns hx _ k value) (wrote_txns hy _ k value)
    ⟨hsame.version, hsame.active, hsame.status⟩ rfl ?_ ?_
  · intro key hkey
    change recordAt (written n y.state.version k value q.store) key =
      recordAt (written n x.state.version k value s.store) key
    rw [hsame.version, recordAt_written, recordAt_written, h.records hkey]
  · intro z key hz hdata
    change recordAt (written n y.state.version k value q.store) key = none
    have hne : z.state.version ≠ x.state.version := fun heq => hu (hs.handle_eq hx hz heq.symm)
    rw [hsame.version, frame_written x.state.version k value q.store key
      (.inr (hdata.own.2.trans_ne hne)), h.hidden hz hdata]

/-- One step of the run, and the same step without the writes of `t`. -/
theorem Erased.step {o : Op} {r : Except Error Answer} (h : Erased t s q) (hs : Inv s) (hq : Inv q)
    (hb : s'.begins < 2 ^ 64) (he : OpEffect n s o s' r) (ho : writesBy t o = false)
    (hcommit : o ≠ .commit t)
    (hfree : ∀ u k value, u ≠ t → o = writeOp u k value → r ≠ .error writeConflict) :
    ∃ q' rq, q.step n (.op o) = some (q', rq) ∧ Erased t s' q' := by
  cases he with
  | begin counter markers =>
    have hlt : s.begins + 1 < 2 ^ 64 := hb
    exact h.begin hs hq (by omega) counter markers
  | @get u x k r live =>
    obtain ⟨y, hly, -⟩ := h.live live
    obtain ⟨a, hrun⟩ := get_state (n := n) y.state k q.store
    exact ⟨_, _, step_op (program_get hly k) hrun, h⟩
  | @scanPrefix u x p r live =>
    obtain ⟨y, hly, -⟩ := h.live live
    obtain ⟨a, hrun⟩ := scanPrefix_state (n := n) y.state p q.store
    exact ⟨_, _, step_op (program_scanPrefix hly p) hrun, h⟩
  | @conflict u x k value live blocked =>
    rw [writesBy_writeOp, decide_eq_false_iff_not] at ho
    exact absurd rfl (hfree u k value ho rfl)
  | @write u x k value live free =>
    rw [writesBy_writeOp, decide_eq_false_iff_not] at ho
    exact h.write hs hq live ho free
  | @commit u x ks live writes =>
    have hu : u ≠ t := fun heq => hcommit (heq ▸ rfl)
    obtain ⟨hx, -⟩ := live_iff.mp live
    obtain ⟨y, hly, hsame⟩ := h.live live
    obtain ⟨ksq, hksq, hrun, -⟩ := commit_spec (n := n) hq.encoded y.state
    refine ⟨_, _, step_op (program_commit hly) hrun, h.finish hx hsame rfl rfl
      (record_commit_txns hx _) (record_commit_txns (live_iff.mp hly).1 _) rfl rfl ?_⟩
    intro key _
    simp only [mem_commitKeys, h.writeSet hs hx hu hsame writes hksq, hsame.version]
  | @rollback u x ks live writes =>
    obtain ⟨hx, -⟩ := live_iff.mp live
    obtain ⟨y, hly, hsame⟩ := h.live live
    obtain ⟨ksq, hksq, hrun, -⟩ := rollback_spec (n := n) hq.encoded y.state
    refine ⟨_, _, step_op (program_rollback hly) hrun, h.finish hx hsame rfl rfl
      (record_rollback_txns hx _) (record_rollback_txns (live_iff.mp hly).1 _) rfl rfl ?_⟩
    intro key hkey
    by_cases hu : u = t
    · -- of the keys of `t` only the marker is in question
      subst hu
      have hmark : ∀ ks', key ∈ rollbackKeys x.state.version ks' ↔
          key = .txnActive x.state.version := by
        intro ks'
        rw [mem_rollbackKeys, or_iff_right]
        rintro ⟨k, -, rfl | rfl⟩
        · exact hkey x hx ⟨k, .inr rfl⟩
        · exact hkey x hx ⟨k, .inl rfl⟩
      rw [hsame.version, hmark, hmark]
    · simp only [mem_rollbackKeys, h.writeSet hs hx hu hsame writes hksq, hsame.version]

/-- The two runs side by side. -/
theorem Erased.run {past : List (Op × Result)} (h : Erased t s q) (hs : Inv s) (hq : Inv q)
    (hrun : s.run n (past.map fun p => .op p.1) = some (s', past.map Prod.snd))
    (hb : s'.begins < 2 ^ 64) (hcommit : .commit t ∉ past.map Prod.fst)
    (hfree : ∀ u k value, u ≠ t → (writeOp u k value, some (.error writeConflict)) ∉ past) :
    ∃ q' results, q.run n (((past.map Prod.fst).filter fun o => !writesBy t o).map .op) =
      some (q', results) ∧ Encoded q'.store ∧ Erased t s' q' := by
  induction past generalizing s q with
  | nil =>
    cases hrun
    exact ⟨q, [], rfl, hq.encoded, h⟩
  | cons p past ih =>
    obtain ⟨m, r, rs, hstep, hrun, heq⟩ := run_cons.mp hrun
    obtain ⟨rfl, rfl⟩ := List.cons.inj heq
    have hbm : m.begins < 2 ^ 64 := lt_of_le_of_lt (run_begins_le hrun) hb
    obtain ⟨a, ha, he⟩ := op_effect hs.encoded (hs.counts hstep hbm) hstep
    have hc : .commit t ∉ past.map Prod.fst := fun hin => hcommit (List.mem_cons_of_mem _ hin)
    have hf : ∀ u k value, u ≠ t → (writeOp u k value, some (.error writeConflict)) ∉ past :=
      fun u k value hu hin => hfree u k value hu (List.mem_cons_of_mem _ hin)
    cases ho : writesBy t p.1 with
    | true =>
      rw [List.map_cons, List.filter_cons_of_neg (by simp [ho])]
      exact ih (h.skip he ho) (he.inv hs hbm) hq hrun hc hf
    | false =>
      obtain ⟨q₁, rq, hstepq, h₁⟩ := h.step hs hq hbm he ho
        (fun heq => hcommit (by rw [← heq]; exact List.mem_cons_self))
        (fun u k value hu heq hr => hfree u k value hu (by
          rw [← heq, ← hr, ← ha]
          exact List.mem_cons_self))
      have hbq : q₁.begins < 2 ^ 64 := h₁.begins ▸ hbm
      obtain ⟨aq, -, heq⟩ := op_effect hq.encoded (hq.counts hstepq hbq) hstepq
      obtain ⟨q', results, hrunq, hend⟩ := ih h₁ (he.inv hs hbm) (heq.inv hq hbq) hrun hc hf
      rw [List.map_cons, List.filter_cons_of_pos (by simp [ho])]
      exact ⟨q', rq :: results, run_cons.mpr ⟨q₁, rq, results, hstepq, hrunq, rfl⟩, hend⟩

/-- What an operation makes of a handle when it ends it stays with the handle. -/
theorem ended_status {past : List (Op × Result)} {o : Op} {status : Status} (h : Base s)
    (hrun : s.run n (past.map fun p => .op p.1) = some (s', past.map Prod.snd))
    (hb : s'.begins < 2 ^ 64) (ho : o ∈ past.map Prod.fst) (hlive : status ≠ .live)
    (hend : ∀ {m m' r}, OpEffect n m o m' r → ∃ x, m'.txns t = some x ∧ x.status = status) :
    ∃ x, s'.txns t = some x ∧ x.status = status := by
  have hkeep : ∀ {m : Sys} {rest : List (Op × Result)}, Base m →
      m.run n (rest.map fun p => .op p.1) = some (s', rest.map Prod.snd) →
      (∃ x, m.txns t = some x ∧ x.status = status) → ∃ x, s'.txns t = some x ∧
        x.status = status := by
    intro m rest
    induction rest generalizing m with
    | nil =>
      intro _ hrun hx
      cases hrun
      exact hx
    | cons p rest ih =>
      intro hm hrun hx
      obtain ⟨m', r, rs, hstep, hrun, heq⟩ := run_cons.mp hrun
      obtain ⟨-, rfl⟩ := List.cons.inj heq
      have hbm : m'.begins < 2 ^ 64 := lt_of_le_of_lt (run_begins_le hrun) hb
      obtain ⟨a, -, he⟩ := op_effect hm.encoded (hm.counts hstep hbm) hstep
      obtain ⟨x, hx, hst⟩ := hx
      exact ih (he.base hm hbm) hrun ⟨x, he.frame hm hx (.inr (hst.trans_ne hlive)), hst⟩
  induction past generalizing s with
  | nil => cases ho
  | cons p past ih =>
    obtain ⟨m, r, rs, hstep, hrun, heq⟩ := run_cons.mp hrun
    obtain ⟨-, rfl⟩ := List.cons.inj heq
    have hbm : m.begins < 2 ^ 64 := lt_of_le_of_lt (run_begins_le hrun) hb
    obtain ⟨a, -, he⟩ := op_effect h.encoded (h.counts hstep hbm) hstep
    rcases List.mem_cons.mp ho with rfl | ho
    · exact hkeep (he.base h hbm) hrun (hend he)
    · exact ih (he.base h hbm) hrun ho

theorem OpEffect.live_of_handle {o : Op} {r : Except Error Answer} (he : OpEffect n s o s' r)
    (ho : handle o = some t) : ∃ x, s.live t = some x := by
  cases he with
  | begin counter markers => cases ho
  | get live | scanPrefix live | commit live writes | rollback live writes =>
    cases ho
    exact ⟨_, live⟩
  | conflict live blocked | write live free =>
    rw [handle_writeOp] at ho
    cases ho
    exact ⟨_, live⟩

theorem OpEffect.ended {o : Op} {r : Except Error Answer} (he : OpEffect n s o s' r) :
    (o = .commit t → ∃ x, s'.txns t = some x ∧ x.status = .committed) ∧
      (o = .rollback t → ∃ x, s'.txns t = some x ∧ x.status = .rolledBack) := by
  cases he with
  | @conflict u x k value live blocked => cases value <;> simp [writeOp]
  | @write u x k value live free => cases value <;> simp [writeOp]
  | @commit u x ks live writes =>
    refine ⟨?_, by simp⟩
    intro ho
    cases ho
    exact ⟨_, by rw [record_commit_txns (live_iff.mp live).1, Function.update_self], rfl⟩
  | @rollback u x ks live writes =>
    refine ⟨by simp, ?_⟩
    intro ho
    cases ho
    exact ⟨_, by rw [record_rollback_txns (live_iff.mp live).1, Function.update_self], rfl⟩
  | _ => simp

/-- A transaction that ends with Rollback, in a run in which no other one gets a
write conflict: the store is that of the run without its Set and Delete calls,
nothing of it is left, and its operations have changed only its own records. -/
theorem rollback_erases {past : List (Op × Result)}
    (hrun : Sys.init.run n (past.map fun p => .op p.1) = some (s, past.map Prod.snd))
    (hb : s.begins < 2 ^ 64) (hend : .rollback t ∈ past.map Prod.fst)
    (hfree : ∀ u k value, u ≠ t → (writeOp u k value, some (.error writeConflict)) ∉ past) :
    (∃ q results, Sys.init.run n
        (((past.map Prod.fst).filter fun o => !writesBy t o).map .op) = some (q, results) ∧
      q.store = s.store) ∧
    (∃ x, s.txns t = some x ∧ recordAt s.store (.txnActive x.state.version) = none ∧
      (∀ k, recordAt s.store (.version k x.state.version) = none) ∧
      ∀ k, recordAt s.store (.txnWrite x.state.version k) = none) ∧
    ∀ before o r rest m m', past = before ++ (o, r) :: rest → handle o = some t →
      Sys.init.run n (before.map fun p => .op p.1) = some (m, before.map Prod.snd) →
      m.step n (.op o) = some (m', r) →
      ∃ x, m.txns t = some x ∧ Frame x.state.version m.store m'.store := by
  have hplain : ∀ {ops : List (Op × Result)}, ∀ st ∈ ops.map (fun p => Step.op p.1),
      st.reliable := by
    intro ops st hst
    obtain ⟨p, -, rfl⟩ := List.mem_map.mp hst
    exact trivial
  have hinv : Inv s := Reaches.inv ⟨_, _, hplain, hrun⟩ hb
  obtain ⟨x, hx, hst⟩ := ended_status base_init hrun hb hend (by simp) (fun he => he.ended.2 rfl)
  have hcommit : .commit t ∉ past.map Prod.fst := by
    intro hin
    obtain ⟨x', hx', hst'⟩ := ended_status base_init hrun hb hin (by simp)
      (fun he => he.ended.1 rfl)
    rw [hx] at hx'
    cases hx'
    rw [hst] at hst'
    cases hst'
  have hstored := hinv.stored hx
  simp only [Stored, hst] at hstored
  refine ⟨?_, ⟨x, hx, hstored⟩, ?_⟩
  · obtain ⟨q, results, hrunq, henc, herased⟩ :=
      (erased_init t).run inv_init inv_init hrun hb hcommit hfree
    refine ⟨q, results, hrunq, eq_of_recordAt henc hinv.encoded ?_⟩
    intro key
    by_cases hdata : Data x.state.version key
    · rw [herased.hidden hx hdata]
      obtain ⟨k, rfl | rfl⟩ := hdata
      · exact (hstored.2.1 k).symm
      · exact (hstored.2.2 k).symm
    · apply herased.records
      intro x' hx'
      rw [hx] at hx'
      cases hx'
      exact hdata
  · intro before o r rest m m' heq ho hbefore hstep
    have hbm : m'.begins < 2 ^ 64 := by
      rw [heq, List.map_append, List.map_append, run_append] at hrun
      obtain ⟨m₀, rs, rs', hrun₀, hlast, -⟩ := hrun
      rw [hbefore] at hrun₀
      cases hrun₀
      obtain ⟨m₁, r₁, rs₁, hstep₁, hrest, -⟩ := run_cons.mp hlast
      rw [hstep] at hstep₁
      cases hstep₁
      exact lt_of_le_of_lt (run_begins_le hrest) hb
    have hm : Base m := Reaches.base ⟨_, _, hplain, hbefore⟩
      (lt_of_le_of_lt (step_begins_le hstep) hbm)
    obtain ⟨a, -, he⟩ := op_effect hm.encoded (hm.counts hstep hbm) hstep
    obtain ⟨y, hl⟩ := he.live_of_handle ho
    exact ⟨y, (live_iff.mp hl).1, he.own_frame ho (live_iff.mp hl).1⟩

theorem rollback_erases_overwrite : ∃ s q results,
    Sys.init.run .kept ([Op.begin, .set 0 [1] [6], .commit 0, .begin, .begin, .set 1 [1] [7],
      .set 2 [2] [8], .delete 1 [3], .rollback 1, .commit 2].map .op) = some (s, results) ∧
      (∃ results', Sys.init.run .kept ([Op.begin, .set 0 [1] [6], .commit 0, .begin, .begin,
        .set 2 [2] [8], .rollback 1, .commit 2].map .op) = some (q, results')) ∧
      q.store = s.store := by
  let past : List (Op × Result) := [(.begin, some (.ok (.handle ⟨1, []⟩))),
    (.set 0 [1] [6], some (.ok .unit)), (.commit 0, some (.ok .unit)),
    (.begin, some (.ok (.handle ⟨2, []⟩))), (.begin, some (.ok (.handle ⟨3, [2]⟩))),
    (.set 1 [1] [7], some (.ok .unit)), (.set 2 [2] [8], some (.ok .unit)),
    (.delete 1 [3], some (.ok .unit)), (.rollback 1, some (.ok .unit)),
    (.commit 2, some (.ok .unit))]
  have heval : (Sys.init.run .kept (past.map fun p => .op p.1)).map (fun q => (q.2, q.1.begins)) =
      some (past.map Prod.snd, 3) := by decide +kernel
  obtain ⟨⟨s, results⟩, hrun, heq⟩ := Option.map_eq_some_iff.mp heval
  simp only [Prod.mk.injEq] at heq
  obtain ⟨rfl, hb⟩ := heq
  have hfree : ∀ u k value, u ≠ 1 → (writeOp u k value, some (.error writeConflict)) ∉ past := by
    intro u k value _ hin
    have hmem := List.mem_map_of_mem (f := Prod.snd) hin
    simp [past] at hmem
  obtain ⟨⟨q, results', hrunq, hstore⟩, -⟩ :=
    rollback_erases (t := 1) hrun (by omega) (by simp [past]) hfree
  exact ⟨s, q, _, hrun, ⟨results', hrunq⟩, hstore⟩

/-- What a committed transaction has left when its version is given out again. -/
def reusedData : Store := OrderedMap.empty.insert (MvccKey.version [1] 1).encode (some [1, 7])

/-- 2^64 Begins later a transaction has the version of a committed one. Its
Rollback deletes the committed value that its Set has replaced. -/
theorem rollback_deletes_committed_after_wrap : ∃ s q rs rs',
    Sys.init.run .kept (([Op.begin, .set 0 [1] [7], .commit 0] ++ (rounds 1 (2 ^ 64 - 1) ++
      [Op.begin, .set (2 ^ 64) [1] [8], .rollback (2 ^ 64)])).map .op) =
      some (s, [some (.ok (.handle ⟨1, []⟩)), some (.ok .unit), some (.ok .unit)] ++ (rs ++
        [some (.ok (.handle ⟨1, []⟩)), some (.ok .unit), some (.ok .unit)])) ∧
    Sys.init.run .kept (([Op.begin, .set 0 [1] [7], .commit 0] ++ (rounds 1 (2 ^ 64 - 1) ++
      [Op.begin, .rollback (2 ^ 64)])).map .op) = some (q, rs') ∧
    recordAt s.store (.version [1] 1) = none ∧
    recordAt q.store (.version [1] 1) = some (some [1, 7]) := by
  have hd : Settled reusedData := settled_empty.insert _ _ _
  obtain ⟨s₀, rs₀, hrun₀, hidle⟩ := idle_after .kept reusedData
    [.begin, .set 0 [1] [7], .commit 0] [0] (a := 1) (by decide) (by decide) (by simp)
    (by decide +kernel)
  have hres : (Sys.init.run .kept ([Op.begin, .set 0 [1] [7], .commit 0].map .op)).map Prod.snd =
      some [some (.ok (.handle ⟨1, []⟩)), some (.ok .unit), some (.ok .unit)] := by decide +kernel
  rw [hrun₀, Option.map_some, Option.some.injEq] at hres
  subst hres
  have hwith : ((resumed reusedData (1 + (2 ^ 64 - 1))).run .kept
      ([Op.begin, .set (2 ^ 64) [1] [8], .rollback (2 ^ 64)].map .op)).map
      (fun q => (q.2, recordAt q.1.store (.version [1] 1))) =
      some ([some (.ok (.handle ⟨1, []⟩)), some (.ok .unit), some (.ok .unit)], none) := by
    decide +kernel
  have hwithout : ((resumed reusedData (1 + (2 ^ 64 - 1))).run .kept
      ([Op.begin, .rollback (2 ^ 64)].map .op)).map
      (fun q => recordAt q.1.store (.version [1] 1)) = some (some (some [1, 7])) := by
    decide +kernel
  obtain ⟨⟨s, results⟩, hrun, heq⟩ := Option.map_eq_some_iff.mp hwith
  obtain ⟨⟨q, resultsq⟩, hrunq, hrec⟩ := Option.map_eq_some_iff.mp hwithout
  simp only [Prod.mk.injEq] at heq
  obtain ⟨rfl, hnone⟩ := heq
  obtain ⟨old, rs, -, hend⟩ := hidle.run_rounds hd hrun₀ (by omega) (by simp [handle]) hrun
  obtain ⟨oldq, rsq, -, hendq⟩ := hidle.run_rounds hd hrun₀ (by omega) (by simp [handle]) hrunq
  exact ⟨_, _, rs, _, hend, hendq, hnone, hrec⟩

end SpaceDB.Proofs
