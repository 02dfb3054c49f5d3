import SpaceDB.Proofs.SnapshotIsolation

namespace SpaceDB.Proofs
open Lib Storage

variable {n : NilValue} {s s' s₁ s₂ : Sys} {t u : Nat} {x y : Txn}

theorem Frame.trans {v : Version} {a b c : Store} (h : Frame v a b) (h' : Frame v b c) :
    Frame v a c := fun key hkey => (h' key hkey).trans (h key hkey)

/-- Operations on one handle change only records of its version. -/
theorem Inv.run_own {ops : List Op} {results : List Result} (h : Inv s) (hx : s.txns t = some x)
    (hops : ∀ o ∈ ops, handle o = some t) (hrun : s.run n (ops.map .op) = some (s', results))
    (hb : s'.begins < 2 ^ 64) : Inv s' ∧ Frame x.state.version s.store s'.store := by
  induction ops generalizing s x results with
  | nil =>
    cases hrun
    exact ⟨h, fun _ _ => rfl⟩
  | cons o ops ih =>
    obtain ⟨m, r, rs, hstep, hrun, -⟩ := run_cons.mp hrun
    have hbm : m.begins < 2 ^ 64 := lt_of_le_of_lt (run_begins_le hrun) hb
    obtain ⟨a, -, he⟩ := op_effect h.encoded (h.counts hstep hbm) hstep
    obtain ⟨x', hx', hst, -⟩ := step_snapshot (h.bound hx) hx hstep
    obtain ⟨h', hframe⟩ := ih (he.inv h hbm) hx' (fun o' h' => hops o' (List.mem_cons_of_mem _ h'))
      hrun
    rw [hst] at hframe
    exact ⟨h', (he.own_frame (hops o List.mem_cons_self) hx).trans hframe⟩

/-- The operations of one handle begin no other. -/
theorem run_own_begins {ops : List Op} {results : List Result}
    (hops : ∀ o ∈ ops, handle o = some t) (hrun : s.run n (ops.map .op) = some (s', results)) :
    s'.begins = s.begins := by
  have hk : ∀ st ∈ ops.map Step.op, operation st ≠ .begin := by
    intro st hst heq
    obtain ⟨o, ho, rfl⟩ := List.mem_map.mp hst
    have hno := hops o ho
    rw [show o = .begin from heq] at hno
    cases hno
  refine run_induction (P := fun m => m.begins = s.begins) ?_ hk rfl hrun
  intro m st m' r hst hm hstep
  rw [step_begins hstep, if_neg hst, hm]

/-- Only handles that are live or lost have a marker. -/
theorem Inv.lost_of_marked (h : Inv s) (hnone : ∀ t, s.live t = none) (hy : s.txns u = some y)
    (hmark : (recordAt s.store (.txnActive y.state.version)).isSome) : y.status = .lost := by
  have hst := h.stored hy
  unfold Stored at hst
  cases hstatus : y.status with
  | lost => rfl
  | live =>
    have hl := live_iff.mpr ⟨hy, hstatus⟩
    rw [hnone] at hl
    cases hl
  | committed =>
    rw [hstatus] at hst
    rw [hst.1] at hmark
    cases hmark
  | rolledBack =>
    rw [hstatus] at hst
    rw [hst.1] at hmark
    cases hmark

/-- What blocks the only live handle: a version that a lost handle has left. -/
theorem Inv.blocked_by_lost {next : Version} {active : List Version} {k : Bytes} (h : Inv s)
    (hb : s.begins < 2 ^ 64 - 1) (hn : NextIs s.store next)
    (hactive : ∀ v, v ∈ active ↔ (recordAt s.store (.txnActive v)).isSome)
    (hnone : ∀ t, s.live t = none) (h₂ : Inv s₂) (hx : s₂.txns t = some x)
    (hstate : x.state = ⟨next, active⟩)
    (hframe : Frame next (begun n next s.store) s₂.store) :
    Blocked s₂.store x.state k ↔ ∃ u y, s.txns u = some y ∧ y.status = .lost ∧
      recordAt s.store (.version k y.state.version) ≠ none := by
  have hused := (h.next hb hn).2
  have hrec : ∀ {v}, v ≠ next →
      recordAt s₂.store (.version k v) = recordAt s.store (.version k v) := by
    intro v hv
    rw [hframe (.version k v) (.inr hv), recordAt_begun, if_neg (by simp), if_neg (by simp)]
  rw [h₂.blocked_iff hx, hstate]
  constructor
  · intro hex
    obtain ⟨v, hv, hinv⟩ := hex
    have hne : v ≠ next := by
      rintro rfl
      have hvis : TransactionState.isVisible ⟨v, active⟩ v = true := by
        rw [isVisible_iff]
        refine ⟨?_, le_refl _⟩
        intro hin
        exact lt_irrefl _ (hused v (.inr ⟨.txnActive v, by simp, rfl, (hactive v).mp hin⟩))
      rw [hvis] at hinv
      cases hinv
    rw [hrec hne] at hv
    obtain ⟨u, y, hy, rfl⟩ := h.owned hv
    have hlt := hused _ (.inl ⟨u, y, hy, rfl⟩)
    have hin : y.state.version ∈ active := by
      by_contra hout
      rw [Bool.eq_false_iff] at hinv
      exact hinv (isVisible_iff.mpr ⟨hout, le_of_lt hlt⟩)
    exact ⟨u, y, hy, h.lost_of_marked hnone hy ((hactive _).mp hin),
      Option.isSome_iff_ne_none.mp hv⟩
  · intro hex
    obtain ⟨u, y, hy, hlost, hsome⟩ := hex
    have hv := Option.isSome_iff_ne_none.mpr hsome
    have hst := h.stored hy
    unfold Stored at hst
    rw [hlost] at hst
    have hlt := hused _ (.inl ⟨u, y, hy, rfl⟩)
    refine ⟨y.state.version, by rw [hrec (ne_of_lt hlt)]; exact hv, ?_⟩
    rw [Bool.eq_false_iff]
    intro hvis
    exact (isVisible_iff.mp hvis).1 ((hactive _).mpr (hst k hv))

/-- The only live transaction writes a key without conflict exactly when no
transaction of a dead process has left a version of it. -/
theorem fresh_writer_free_iff {r : Result} {ops : List Op} {results : List Result}
    (h : Reaches n Step.reliable s) (hb : s.begins < 2 ^ 64 - 1) (hnone : ∀ t, s.live t = none)
    (hbegin : s.step n (.op .begin) = some (s₁, r)) (hops : ∀ o ∈ ops, handle o = some s.begins)
    (hrun : s₁.run n (ops.map .op) = some (s₂, results)) (hl : s₂.live s.begins = some x)
    (k : Bytes) (value : Slice) :
    ((∃ s₃, s₂.step n (.op (writeOp s.begins k value)) = some (s₃, some (.ok .unit))) ↔
      ∀ u y, s.txns u = some y → y.status = .lost →
        recordAt s.store (.version k y.state.version) = none) ∧
    ((s₂.step n (.op (writeOp s.begins k value)) = some (s₂, some (.error writeConflict))) ↔
      ∃ u y, s.txns u = some y ∧ y.status = .lost ∧
        recordAt s.store (.version k y.state.version) ≠ none) := by
  have hI : Inv s := Reaches.inv h (by omega)
  obtain ⟨next, hn, -⟩ := hI.counter hb
  obtain ⟨active, hactive, hopen⟩ := step_begin (n := n) hI.encoded hn
  rw [hopen] at hbegin
  cases hbegin
  have hb₂ : s₂.begins < 2 ^ 64 := by
    have hown := run_own_begins hops hrun
    change s₂.begins = s.begins + 1 at hown
    omega
  have h₁ : Inv (opened n s ⟨next, active⟩) :=
    (OpEffect.begin (n := n) hn hactive).inv hI (lt_of_le_of_lt (run_begins_le hrun) hb₂)
  have hentry : (opened n s ⟨next, active⟩).txns s.begins =
      some ⟨⟨next, active⟩, .live, [], s.commits⟩ := Function.update_self _ _ _
  obtain ⟨h₂, hframe⟩ := h₁.run_own hentry hops hrun hb₂
  obtain ⟨x', hx', hstate, -⟩ := run_snapshot (Nat.lt_succ_self _) hentry hrun
  rw [(live_iff.mp hl).1] at hx'
  cases hx'
  have hblock := hI.blocked_by_lost (k := k) hb hn hactive hnone h₂ (live_iff.mp hl).1 hstate hframe
  by_cases hB : Blocked s₂.store x.state k
  · have hstep := step_conflict (n := n) h₂.encoded hl hB value
    obtain ⟨u, y, hy, hlost, hrec⟩ := hblock.mp hB
    refine ⟨iff_of_false ?_ (fun hall => hrec (hall u y hy hlost)),
      iff_of_true hstep (hblock.mp hB)⟩
    rintro ⟨s₃, hok⟩
    rw [hstep] at hok
    cases hok
  · have hstep := step_write (n := n) h₂.encoded hl hB value
    refine ⟨iff_of_true ⟨_, hstep⟩ ?_, iff_of_false ?_ (fun hex => hB (hblock.mpr hex))⟩
    · intro u y hy hlost
      by_contra hrec
      exact hB (hblock.mpr ⟨u, y, hy, hlost, hrec⟩)
    · intro herr
      rw [hstep] at herr
      cases (Prod.mk.inj (Option.some.inj herr)).2

theorem fresh_writer_free_iff_crash : ∃ s s₁ results r,
    Sys.init.run .kept [.op .begin, .op (.set 0 [1] [7]), .crash (.get 0 []) 0] =
      some (s, results) ∧ s.step .kept (.op .begin) = some (s₁, r) ∧
      s₁.step .kept (.op (.delete 1 [1])) = some (s₁, some (.error writeConflict)) := by
  obtain ⟨s, results, hrun, hf⟩ := run_observe .kept
    [.op .begin, .op (.set 0 [1] [7]), .crash (.get 0 []) 0]
    (fun s => (s.txns 0).map fun x =>
      (s.begins, x.status, (recordAt s.store (.version [1] x.state.version)).isSome))
    (1, .lost, true) (by decide +kernel)
  obtain ⟨y, hy, heq⟩ := Option.map_eq_some_iff.mp hf
  simp only [Prod.mk.injEq] at heq
  have hsplit : Sys.init.run .kept ([.op .begin, .op (.set 0 [1] [7])] ++ [.crash (.get 0 []) 0]) =
      some (s, results) := hrun
  obtain ⟨m, rs, rs', -, hlast, -⟩ := run_append.mp hsplit
  obtain ⟨m', r, rs'', hcrash, hnil, -⟩ := run_cons.mp hlast
  cases hnil
  have hreach : Reaches .kept Step.reliable s := ⟨_, results, by simp [Step.reliable], hrun⟩
  obtain ⟨next, hn, -⟩ := (Reaches.base hreach (by omega)).counter (by omega)
  obtain ⟨active, -, hbegin⟩ :=
    step_begin (n := .kept) (Reaches.base hreach (by omega)).encoded hn
  have hl : (opened .kept s ⟨next, active⟩).live s.begins =
      some ⟨⟨next, active⟩, .live, [], s.commits⟩ :=
    live_iff.mpr ⟨Function.update_self _ _ _, rfl⟩
  have hops : ∀ o ∈ ([] : List Op), handle o = some s.begins := by simp
  have hfree := fresh_writer_free_iff hreach (by omega) (crash_live_none hcrash) hbegin hops rfl
    hl [1] none
  rw [heq.1] at hfree
  exact ⟨s, _, results, _, hrun, hbegin,
    hfree.2.mpr ⟨0, y, hy, heq.2.1, Option.isSome_iff_ne_none.mp heq.2.2⟩⟩

/-- A process dies while its transaction is open. The next one cannot write the
key that the dead transaction has written. -/
theorem fresh_writer_blocked_after_crash : ∃ s₀ s results₀,
    Sys.init.run .kept [.op .begin, .op (.set 0 [1] [7])] = some (s₀, results₀) ∧
      s₀.step .kept (.crash (.get 0 []) 0) = some (s, none) ∧ (∀ t, s.live t = none) ∧
      ∃ s', s.run .kept [.op .begin, .op (.set 1 [1] [8])] =
        some (s', [some (.ok (.handle ⟨2, [1]⟩)), some (.error writeConflict)]) := by
  obtain ⟨s₀, results₀, hrun₀, hf⟩ := run_observe .kept [.op .begin, .op (.set 0 [1] [7])]
    (fun s₀ => (s₀.step .kept (.crash (.get 0 []) 0)).bind fun q =>
      (q.1.run .kept [.op .begin, .op (.set 1 [1] [8])]).map fun q' => (q.2, q'.2))
    (none, [some (.ok (.handle ⟨2, [1]⟩)), some (.error writeConflict)]) (by decide +kernel)
  obtain ⟨⟨s, r⟩, hcrash, hrest⟩ := Option.bind_eq_some_iff.mp hf
  obtain ⟨⟨s', results⟩, hrun, heq⟩ := Option.map_eq_some_iff.mp hrest
  simp only [Prod.mk.injEq] at heq
  obtain ⟨rfl, rfl⟩ := heq
  exact ⟨s₀, s, results₀, hrun₀, hcrash, crash_live_none hcrash, s', hrun⟩

end SpaceDB.Proofs
