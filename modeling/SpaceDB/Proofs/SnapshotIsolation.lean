import SpaceDB.Proofs.SnapshotReads

namespace SpaceDB.Proofs
open Lib Storage

variable {n : NilValue} {s s' : Sys} {t u : Nat} {x y : Txn}

def changes : Op → Option Nat
  | .set t _ _ | .delete t _ | .commit t | .rollback t => some t
  | .begin | .get _ _ | .scanPrefix _ _ => none

theorem changes_writeOp (t : Nat) (k : Bytes) (value : Slice) :
    changes (writeOp t k value) = some t := by
  cases value <;> rfl

/-- An operation leaves the other handles alone, and those that have ended. -/
theorem OpEffect.frame {o : Op} {r : Except Error Answer} (he : OpEffect n s o s' r) (hb : Base s)
    (hy : s.txns u = some y) (hu : changes o ≠ some u ∨ y.status ≠ .live) :
    s'.txns u = some y := by
  have hne : ∀ {t x}, changes o = some t → s.live t = some x → u ≠ t := by
    intro t x ho hl heq
    subst heq
    obtain ⟨hx, hst⟩ := live_iff.mp hl
    rw [hy] at hx
    cases hx
    rcases hu with hu | hu
    · exact hu ho
    · exact hu hst
  cases he with
  | begin counter markers =>
    change Function.update _ _ _ _ = _
    rw [Function.update_apply, if_neg (ne_of_lt (hb.bound hy)), hy]
  | get live => exact hy
  | scanPrefix live => exact hy
  | conflict live blocked => exact hy
  | write live free =>
    rw [wrote_txns (live_iff.mp live).1, Function.update_apply,
      if_neg (hne (changes_writeOp _ _ _) live), hy]
  | commit live writes =>
    rw [record_commit_txns (live_iff.mp live).1, Function.update_apply, if_neg (hne rfl live), hy]
  | rollback live writes =>
    rw [record_rollback_txns (live_iff.mp live).1, Function.update_apply, if_neg (hne rfl live), hy]

theorem database_congr {us : List Nat} (h : ∀ u ∈ us, s'.txns u = s.txns u) :
    s'.database us = s.database us := by
  induction us using List.reverseRecOn with
  | nil => rfl
  | append_singleton us u ih =>
    funext k
    rw [database_append, database_append, ih (fun w hw => h w (by simp [hw])), writesOf, writesOf,
      h u (by simp)]

/-- Operations that do not change a live handle leave its snapshot alone. -/
theorem Inv.run_frame {ops : List Op} {results : List Result} (h : Inv s)
    (hx : s.txns t = some x) (hops : ∀ o ∈ ops, changes o ≠ some t)
    (hrun : s.run n (ops.map .op) = some (s', results)) (hb : s'.begins < 2 ^ 64) :
    Inv s' ∧ s'.txns t = some x ∧ ∀ u ∈ x.seen, s'.txns u = s.txns u := by
  have hkind : ∀ st ∈ ops.map Step.op, ∃ o, st = .op o ∧ changes o ≠ some t := by
    intro st hst
    obtain ⟨o, ho, rfl⟩ := List.mem_map.mp hst
    exact ⟨o, rfl, hops o ho⟩
  refine run_induction (P := fun m => m.begins < 2 ^ 64 →
    Inv m ∧ m.txns t = some x ∧ ∀ u ∈ x.seen, m.txns u = s.txns u) ?_ hkind
    (fun _ => ⟨h, hx, fun _ _ => rfl⟩) hrun hb
  intro m st m' r hst hm hstep hb
  obtain ⟨o, rfl, ho⟩ := hst
  obtain ⟨hinv, hxm, hseen⟩ := hm (lt_of_le_of_lt (step_begins_le hstep) hb)
  obtain ⟨a, -, he⟩ := op_effect hinv.encoded (hinv.counts hstep hb) hstep
  refine ⟨he.inv hinv hb, he.frame hinv.toBase hxm (.inl ho), ?_⟩
  intro u hu
  obtain ⟨y, hy, hc, -⟩ := hinv.visible_of_seen hxm hu
  rw [← hseen u hu, hy]
  exact he.frame hinv.toBase hy (.inr (by rw [hc]; simp))

theorem plain_ops (ops : List Op) : ∀ st ∈ ops.map Step.op, st.plain := by
  intro st hst
  obtain ⟨o, -, rfl⟩ := List.mem_map.mp hst
  exact trivial

/-- Get in a live transaction answers with its own last write of the key, and
otherwise from the database of the transactions that had committed when it
began. Nothing the other transactions do changes the answer. -/
theorem get_snapshot {steps : List Step} {results : List Result}
    (hk : ∀ st ∈ steps, st.plain) (hrun : Sys.init.run n steps = some (s, results))
    (hb : s.begins < 2 ^ 64 - 1) (hl : s.live t = some x) (k : Bytes) :
    s.step n (.op (.get t k)) =
        some (s, some (.ok (.value ((lastWrite x.writes k).getD (s.database x.seen k))))) ∧
      ∀ (ops : List Op) (s' : Sys) (rs : List Result), (∀ o ∈ ops, changes o ≠ some t) →
        s.run n (ops.map .op) = some (s', rs) → s'.begins < 2 ^ 64 - 1 →
        s'.step n (.op (.get t k)) =
          some (s', some (.ok (.value ((lastWrite x.writes k).getD (s.database x.seen k))))) := by
  have h : Inv s := Reaches.inv (n := n) ⟨steps, results, fun st hst =>
    reliable_of_plain (hk st hst), hrun⟩ (by omega)
  obtain ⟨hx, hst⟩ := live_iff.mp hl
  refine ⟨h.get_step hb hl k, ?_⟩
  intro ops s' rs hops hrun' hb'
  obtain ⟨h', hx', hseen⟩ := h.run_frame hx hops hrun' (by omega)
  rw [← database_congr hseen]
  exact h'.get_step hb' (live_iff.mpr ⟨hx', hst⟩) k

theorem get_snapshot_committed : ∃ s results,
    Sys.init.run .kept ([.begin, .set 0 [1] [7], .commit 0, .begin].map .op) = some (s, results) ∧
      s.step .kept (.op (.get 1 [1])) = some (s, some (.ok (.value (some [7])))) := by
  obtain ⟨s, results, hrun, hf⟩ := run_observe .kept
    ([.begin, .set 0 [1] [7], .commit 0, .begin].map .op)
    (fun s => (s.live 1).map fun x => ((lastWrite x.writes [1]).getD (s.database x.seen [1]),
      s.begins)) (some [7], 2) (by decide +kernel)
  obtain ⟨x, hl, hx⟩ := Option.map_eq_some_iff.mp hf
  simp only [Prod.mk.injEq] at hx
  have hget := (get_snapshot (plain_ops _) hrun (by omega) hl [1]).1
  rw [hx.1] at hget
  exact ⟨s, results, hrun, hget⟩

end SpaceDB.Proofs
