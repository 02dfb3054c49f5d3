import SpaceDB.Proofs.Wraparound

namespace SpaceDB.Proofs
open Lib Storage

variable {n : NilValue} {s s' : Sys} {t : Nat} {x : Txn}

theorem not_visible_iff {st : TransactionState} {v : Version} :
    st.isVisible v = false ↔ v ∈ st.activeVersions ∨ st.version < v := by
  rw [Bool.eq_false_iff, ne_eq, isVisible_iff, not_and_or, not_not, not_le]

/-- Set and Delete look at the newest version record from a lower bound only,
and still report a conflict exactly when some record of the key is invisible.
Reporting it changes nothing. -/
theorem conflict_iff_invisible_record {k : Bytes} (h : Reaches n Step.reliable s)
    (hb : s.begins < 2 ^ 64) (hl : s.live t = some x) (value : Slice) :
    ((∃ s', s.step n (.op (writeOp t k value)) = some (s', some (.error writeConflict))) ↔
        ∃ v, (recordAt s.store (.version k v)).isSome ∧
          (v ∈ x.state.activeVersions ∨ x.state.version < v)) ∧
      ∀ s', s.step n (.op (writeOp t k value)) =
      some (s', some (.error writeConflict)) → s' = s := by
  have hinv : Inv s := Reaches.inv h hb
  have hblocked : Blocked s.store x.state k ↔ ∃ v, (recordAt s.store (.version k v)).isSome ∧
      (v ∈ x.state.activeVersions ∨ x.state.version < v) := by
    simp only [hinv.blocked_iff (live_iff.mp hl).1, not_visible_iff]
  rw [← hblocked]
  by_cases hB : Blocked s.store x.state k
  · have hstep := step_conflict (n := n) hinv.encoded hl hB value
    refine ⟨iff_of_true ⟨s, hstep⟩ hB, ?_⟩
    intro s' hs'
    rw [hstep] at hs'
    cases hs'
    rfl
  · have hstep := step_write (n := n) hinv.encoded hl hB value
    have hok : ∀ s', s.step n (.op (writeOp t k value)) ≠
        some (s', some (.error writeConflict)) := by
      intro s' hs'
      rw [hstep] at hs'
      cases (Prod.mk.inj (Option.some.inj hs')).2
    refine ⟨iff_of_false ?_ hB, ?_⟩
    · intro hex
      obtain ⟨s', hs'⟩ := hex
      exact hok s' hs'
    · intro s' hs'
      exact absurd hs' (hok s')

theorem conflict_iff_invisible_record_crash : ∃ s results,
    Sys.init.run .kept [.op .begin, .op (.set 0 [1] [7]), .crash (.get 0 []) 0, .op .begin] =
      some (s, results) ∧
      s.step .kept (.op (.delete 1 [1])) = some (s, some (.error writeConflict)) := by
  obtain ⟨s, results, hrun, hf⟩ := run_observe .kept
    [.op .begin, .op (.set 0 [1] [7]), .crash (.get 0 []) 0, .op .begin]
    (fun s => (s.live 1).map fun x =>
      (s.begins, x.state, (recordAt s.store (.version [1] 1)).isSome))
    (2, ⟨2, [1]⟩, true) (by decide +kernel)
  obtain ⟨x, hl, heq⟩ := Option.map_eq_some_iff.mp hf
  simp only [Prod.mk.injEq] at heq
  obtain ⟨hb, hstate, hrec⟩ := heq
  have hreach : Reaches .kept Step.reliable s :=
    ⟨_, results, by simp [Step.reliable], hrun⟩
  obtain ⟨hiff, hsame⟩ := conflict_iff_invisible_record (k := [1]) hreach (by omega) hl none
  obtain ⟨s', hs'⟩ := hiff.mpr ⟨1, hrec, .inl (by rw [hstate]; exact List.mem_cons_self)⟩
  obtain rfl := hsame s' hs'
  exact ⟨s', results, hrun, hs'⟩

def twoVersions : Store :=
  (OrderedMap.empty.insert (MvccKey.version [1] 1).encode (some [1, 7])).insert
    (MvccKey.version [1] 2).encode (some [1, 8])

/-- 2^64 Begins later the older of the two versions belongs to a live
transaction again. The next one does not see that record, but the newest record
is its own, so that its Set finds no conflict. -/
theorem invisible_record_missed_after_wrap : ∃ s s' rs x,
    Sys.init.run .kept (([Op.begin, .set 0 [1] [7], .commit 0, .begin, .set 1 [1] [8], .commit 1] ++
      (rounds 2 (2 ^ 64 - 2) ++ [Op.begin, .begin])).map .op) = some (s, rs) ∧
      s.live (2 ^ 64 + 1) = some x ∧ (recordAt s.store (.version [1] 1)).isSome ∧
      1 ∈ x.state.activeVersions ∧
      s.step .kept (.op (.set (2 ^ 64 + 1) [1] [9])) = some (s', some (.ok .unit)) := by
  have hd : Settled twoVersions := (settled_empty.insert _ _ _).insert _ _ _
  obtain ⟨s₀, rs₀, hrun₀, hidle⟩ := idle_after .kept twoVersions
    [.begin, .set 0 [1] [7], .commit 0, .begin, .set 1 [1] [8], .commit 1] [0, 1] (a := 2)
    (by decide) (by decide) (by simp) (by decide +kernel)
  have hlast : ((resumed twoVersions (2 + (2 ^ 64 - 2))).run .kept
      ([Op.begin, .begin].map .op)).bind (fun q => (q.1.step .kept
        (.op (.set (2 ^ 64 + 1) [1] [9]))).map fun q' => (q'.2, (q.1.live (2 ^ 64 + 1)).map
          Txn.state, (recordAt q.1.store (.version [1] 1)).isSome)) =
      some (some (.ok .unit), some ⟨2, [1]⟩, true) := by decide +kernel
  obtain ⟨⟨s, results⟩, hrun, hq⟩ := Option.bind_eq_some_iff.mp hlast
  obtain ⟨⟨s', r⟩, hstep, heq⟩ := Option.map_eq_some_iff.mp hq
  simp only [Prod.mk.injEq] at heq
  obtain ⟨rfl, hstate, hrec⟩ := heq
  obtain ⟨x, hl, hx⟩ := Option.map_eq_some_iff.mp hstate
  obtain ⟨old, rs, hold, hend⟩ := hidle.run_rounds hd hrun₀ (by omega) (by simp [handle]) hrun
  have hbegins : old.begins ≤ 2 ^ 64 + 1 := by
    rw [hold.begins]
    omega
  refine ⟨_, _, _, Txn.after old x, hend, ?_, hrec, ?_, step_after ?_ ?_ hstep⟩
  · rw [after_live hbegins, hl]
    rfl
  · change 1 ∈ x.state.activeVersions
    rw [hx]
    exact List.mem_cons_self
  · have hle := run_begins_le hrun
    rw [hold.begins]
    exact hle
  · intro u hu
    cases hu
    exact hbegins

end SpaceDB.Proofs
