import SpaceDB.Proofs.StatementSnapshots

namespace SpaceDB.Proofs
open Lib Storage Sql Engine

variable {n : NilValue} {s s' : Sys} {t : Nat} {x : Txn} {setting : Setting} {w w' : World}

/-- The transactions of the statements that start from number `k` on have all of
`us` in their snapshots. -/
def Aware (k : Nat) (us : List Nat) (w : World) : Prop :=
  ∀ j e t, k ≤ j → w.executions j = some e → e.handle = some t →
    ∃ x, w.sys.txns t = some x ∧ us <+: x.seen

/-- A snapshot stays with its transaction. -/
theorem step_aware {st : Step} {r : Result} {us : List Nat} (h : Inv s)
    (hstep : s.step n st = some (s', r)) (hx : ∃ x, s.txns t = some x ∧ us <+: x.seen) :
    ∃ x, s'.txns t = some x ∧ us <+: x.seen := by
  obtain ⟨x, hx, hus⟩ := hx
  obtain ⟨x', hx', hsame⟩ := step_snapshot (h.bound hx) hx hstep
  exact ⟨x', hx', hsame.2 ▸ hus⟩

/-- A transaction that begins has every commit in its snapshot. -/
theorem begun_aware {c : MvccCall} {next : MvccRet c → KvM ResultSet} {handle : Option Nat}
    {phase : Phase} {us : List Nat} (h : Inv s) (hb : s.begins < 2 ^ 64 - 1)
    (hstands : Stands (fun _ _ => True) s handle phase)
    (hwp : (Prog.call c next : KvM ResultSet).wp freeRule Ended phase) (hnone : handle = none)
    (hus : us <+: s.commits) (ht : (serve n c (s, handle)).2.2 = some t) :
    ∃ x, (serve n c (s, handle)).2.1.txns t = some x ∧ us <+: x.seen := by
  subst hnone
  cases phase with
  | idle =>
    cases c with
    | begin =>
      obtain ⟨version, hversion, -⟩ := h.counter hb
      obtain ⟨active, -, hstep⟩ := step_begin (n := n) h.encoded hversion
      rw [serve_eq rfl hstep] at ht ⊢
      cases ht
      exact ⟨_, Function.update_self _ _ _, hus⟩
    | _ => exact hwp.elim
  | running base view =>
    obtain ⟨x, hown, -⟩ := hstands
    obtain ⟨t, ht, -⟩ := hown.entry
    cases ht
  | committed | rolledBack => cases c <;> exact hwp.elim

/-- What is committed now is seen by every statement that starts later. -/
theorem Aware.run {events : List Event} (h : setting.Reaches w)
    (hrun : setting.run w events = some w') (hb : w'.sys.begins < 2 ^ 64 - 1)
    (hnone : ∀ {j e}, w.executions j = some e → j < w.started) :
    Aware w.started w.sys.commits w' := by
  have hle := run_world_begins_le hrun
  refine (sound_induction (P := fun m => w.sys.commits <+: m.sys.commits ∧
    Aware w.started w.sys.commits m) _ _ (fun _ _ _ => trivial)
    (fun i sql => session_phases setting.codec (setting.walks.perm i) sql) ?_
    (reaches_sound h (by omega)) ⟨List.prefix_refl _, ?_⟩ hrun hb).2.2
  · intro m m' hm hold heffect hb
    refine ⟨hold.1.trans heffect.commits, ?_⟩
    intro i e t hi he ht
    cases heffect with
    | start sql =>
      change Function.update _ _ _ _ = _ at he
      rw [Function.update_apply] at he
      split_ifs at he
      · cases he
        cases ht
      · exact hold.2 i e t hi he ht
    | @advance j sql handle c next pending =>
      have hlt : m.sys.begins < 2 ^ 64 - 1 :=
        lt_of_le_of_lt (serve_begins_le setting.nil c m.sys handle) hb
      obtain ⟨phase, hstands, hwp⟩ := hm.executions pending
      have hserved := serve_sound (n := setting.nil) hm.sys hlt (fun _ => trivial) hstands hwp
      obtain ⟨o, r, hstep⟩ := hserved.step
      change Function.update _ _ _ _ = _ at he
      rw [Function.update_apply] at he
      split_ifs at he with hij
      · cases he
        rcases hserved.handle with ⟨u, hu, hsame⟩ | ⟨hnone, -⟩
        · rw [hsame] at ht
          cases ht
          exact step_aware hm.sys hstep (hold.2 _ _ _ (hij ▸ hi) pending hu)
        · exact begun_aware hm.sys hlt hstands hwp hnone hold.1 ht
      · exact step_aware hm.sys hstep (hold.2 i e t hi he ht)
    | crash died => cases he
  · intro j e t hj he
    exact absurd (hnone he) (by omega)

/-- Executions have the numbers of statements that were started. -/
theorem reaches_started (h : setting.Reaches w) {j : Nat} {e : Execution}
    (he : w.executions j = some e) : j < w.started := by
  obtain ⟨events, hrun⟩ := h
  have hinit : ∀ j e, World.init.executions j = some e → j < World.init.started :=
    fun j e h => nomatch h
  refine world_induction (P := fun m => ∀ j e, m.executions j = some e → j < m.started) ?_
    hinit hrun j e he
  intro m m' hold heffect j e he
  cases heffect with
  | start sql =>
    change Function.update _ _ _ _ = _ at he
    rw [Function.update_apply] at he
    split_ifs at he with hj
    · exact hj ▸ Nat.lt_succ_self _
    · exact Nat.lt_succ_of_lt (hold j e he)
  | @advance i sql handle c next pending =>
    change Function.update _ _ _ _ = _ at he
    rw [Function.update_apply] at he
    split_ifs at he with hj
    · rw [hj]
      exact hold _ _ pending
    · exact hold j e he
  | crash died => cases he

/-- A statement that is started after another one has returned sees what that
one has committed, and all that it saw, whoever executes the two and whatever
else runs or dies. -/
theorem later_statement_sees (h : setting.Reaches w) {events : List Event}
    (hrun : setting.run w events = some w') (hb : w'.sys.begins < 2 ^ 64 - 1) {i j : Nat}
    {e e' : Execution} {result : ResultSet} {t t' : Nat} {x x' : Txn} (he : w.executions i = some e)
    (hr : e.result = some (.ok result)) (ht : e.handle = some t) (hx : w.sys.txns t = some x)
    (hlater : w.started ≤ j) (he' : w'.executions j = some e') (ht' : e'.handle = some t')
    (hx' : w'.sys.txns t' = some x') : x.seen <+: x'.seen ∧ t ∈ x'.seen := by
  have hle := run_world_begins_le hrun
  have hinv := reaches_inv h (by omega)
  obtain ⟨y, hy, hstatus, -⟩ := reaches_returned h (by omega) he hr ht
  rw [hx] at hy
  cases hy
  obtain ⟨y', hy', hsees⟩ := Aware.run h hrun hb (reaches_started h) j e' t' hlater he' ht'
  rw [hx'] at hy'
  cases hy'
  exact ⟨(hinv.seen hx).trans hsees, hsees.subset (hinv.committed.mpr ⟨x, hx, hstatus⟩)⟩

theorem later_statement_sees_insert : ∃ w w' x x', serialSetting.run .init oneRow = some w ∧
    serialSetting.run w (executed 2 "SELECT * FROM t;" 4) = some w' ∧ w.sys.txns 1 = some x ∧
    w'.sys.txns 2 = some x' ∧ x.seen <+: x'.seen ∧ 1 ∈ x'.seen := by
  have hobserve : (serialSetting.run .init oneRow).bind (fun w =>
      (serialSetting.run w (executed 2 "SELECT * FROM t;" 4)).bind fun w' =>
        (w.executions 1).bind fun e => (w'.executions 2).bind fun e' => (w.sys.txns 1).bind fun x =>
          (w'.sys.txns 2).map fun x' => (e.result, decide (e.handle = some 1 ∧ e'.handle = some 2 ∧
            w.started = 2 ∧ w'.sys.begins = 3))) =
      some (some (.ok (.insert 1)), true) := by decide +kernel
  obtain ⟨w, hrun, hw⟩ := Option.bind_eq_some_iff.mp hobserve
  obtain ⟨w', hrun', hw⟩ := Option.bind_eq_some_iff.mp hw
  obtain ⟨e, he, hw⟩ := Option.bind_eq_some_iff.mp hw
  obtain ⟨e', he', hw⟩ := Option.bind_eq_some_iff.mp hw
  obtain ⟨x, hx, hw⟩ := Option.bind_eq_some_iff.mp hw
  obtain ⟨x', hx', hw⟩ := Option.map_eq_some_iff.mp hw
  simp only [Prod.mk.injEq, decide_eq_true_eq] at hw
  obtain ⟨hresult, hhandle, hhandle', hstarted, hbegins⟩ := hw
  exact ⟨w, w', x, x', hrun, hrun', hx, hx', later_statement_sees ⟨_, hrun⟩ hrun' (by omega) he
    hresult hhandle hx (le_of_eq hstarted) he' hhandle' hx'⟩

end SpaceDB.Proofs
