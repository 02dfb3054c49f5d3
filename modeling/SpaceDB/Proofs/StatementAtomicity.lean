import SpaceDB.Proofs.SnapshotRows

namespace SpaceDB.Proofs
open Lib Storage Sql Engine

variable {n : NilValue} {s s' : Sys} {t u : Nat} {x y : Txn} {setting : Setting} {w w' : World}

theorem record_commits (s : Sys) (o : Op) (r : Except Error Answer) (store : Store) :
    s.commits <+: (s.record o r store).commits := by
  cases r with
  | error e => cases o <;> exact List.prefix_refl _
  | ok a =>
    cases o with
    | begin => cases a <;> exact List.prefix_refl _
    | commit t => exact List.prefix_append _ _
    | _ => exact List.prefix_refl _

theorem crashed_commits (s : Sys) (o : Op) (store : Store) :
    s.commits <+: (s.crashed o store).commits := by
  cases o with
  | commit t =>
    simp only [Sys.crashed]
    split
    · split
      · exact List.prefix_append _ _
      · exact List.prefix_refl _
    · exact List.prefix_refl _
  | _ => exact List.prefix_refl _

/-- The commit order only grows. -/
theorem step_commits {st : Step} {r : Result} (h : s.step n st = some (s', r)) :
    s.commits <+: s'.commits := by
  cases st with
  | op o =>
    obtain ⟨p, -, hp⟩ := Option.map_eq_some_iff.mp h
    cases hp
    exact record_commits s o _ _
  | crash o calls =>
    obtain ⟨p, -, hp⟩ := Option.map_eq_some_iff.mp h
    cases hp
    exact crashed_commits s o _
  | faulty o faults =>
    obtain ⟨p, -, hp⟩ := Option.map_eq_some_iff.mp h
    cases hp
    exact record_commits s o _ _

/-- What has become of a transaction that has ended does not change. -/
theorem step_ended {st : Step} {r : Result} (h : Inv s) (hst : st.reliable)
    (hstep : s.step n st = some (s', r)) (hb : s'.begins < 2 ^ 64) (hx : s.txns t = some x)
    (hended : x.status ≠ .live) : s'.txns t = some x := by
  have hlose : ∀ {m : Sys}, m.txns t = some x → m.lose.txns t = some x := by
    intro m hm
    change (m.txns t).map _ = _
    rw [hm, Option.map_some, if_neg hended]
  have hn := h.counts hstep hb
  cases st with
  | op o =>
    obtain ⟨a, -, heffect⟩ := op_effect h.encoded hn hstep
    exact heffect.frame h.toBase hx (.inr hended)
  | crash o calls =>
    cases crash_effect h.encoded hn (fun _ _ hl => h.marker hl) hstep with
    | @committed u y ks live writes =>
      obtain ⟨hy, hly⟩ := live_iff.mp live
      apply hlose
      rw [record_commit_txns hy, Function.update_of_ne, hx]
      rintro rfl
      rw [hx] at hy
      cases hy
      exact hended hly
    | _ => exact hlose hx
  | faulty o faults => cases hst

theorem WorldEffect.commits (h : WorldEffect setting w w') : w.sys.commits <+: w'.sys.commits := by
  rcases h.sys_step with heq | ⟨st, r, -, hstep⟩
  · rw [heq]
  · exact step_commits hstep

theorem run_world_commits {events : List Event} (h : setting.run w events = some w') :
    w.sys.commits <+: w'.sys.commits :=
  world_induction (P := fun m => w.sys.commits <+: m.sys.commits)
    (fun hle heffect => hle.trans heffect.commits) (List.prefix_refl _) h

/-- A handle that has ended stays as it is. -/
theorem run_world_ended {events : List Event} (hw : setting.Reaches w)
    (hx : w.sys.txns t = some x) (hended : x.status ≠ .live) (h : setting.run w events = some w')
    (hb : w'.sys.begins < 2 ^ 64 - 1) : w'.sys.txns t = some x := by
  have hle := run_world_begins_le h
  refine (sound_induction (P := fun m => m.sys.txns t = some x) _ _ (fun _ _ _ => trivial)
    (fun i sql => session_phases setting.codec (setting.walks.perm i) sql) ?_
    (reaches_sound hw (by omega)) hx h hb).2
  intro m m' hm hold heffect hb
  rcases heffect.sys_step with heq | ⟨st, r, hst, hstep⟩
  · rw [heq]
    exact hold
  · exact step_ended hm.sys hst hstep (by omega) hold hended

/-- An execution without a transaction has not made a call. -/
theorem reaches_unbegun (h : setting.Reaches w) (hb : w.sys.begins < 2 ^ 64 - 1) {j : Nat}
    {e : Execution} (he : w.executions j = some e) (hnone : e.handle = none) :
    ∃ i, e.rest = Session.execute setting.codec (setting.walks.order i) e.sql := by
  obtain ⟨events, hrun⟩ := h
  refine (sound_induction (P := fun m => ∀ {j e}, m.executions j = some e → e.handle = none →
    ∃ i, e.rest = Session.execute setting.codec (setting.walks.order i) e.sql) _ _
    (fun _ _ _ => trivial) (fun i sql => session_phases setting.codec (setting.walks.perm i) sql) ?_
    sound_init (fun h => nomatch h) hrun hb).2 he hnone
  intro m m' hm hold heffect hb i e he hnone
  cases heffect with
  | start sql =>
    change Function.update _ _ _ _ = _ at he
    rw [Function.update_apply] at he
    split_ifs at he
    · cases he
      exact ⟨_, rfl⟩
    · exact hold he hnone
  | @advance j sql handle c next pending =>
    change Function.update _ _ _ _ = _ at he
    rw [Function.update_apply] at he
    split_ifs at he
    · cases he
      obtain ⟨phase, hstands, hwp⟩ := hm.executions pending
      have hle := serve_begins_le setting.nil c m.sys handle
      have hlt : m.sys.begins < 2 ^ 64 - 1 := lt_of_le_of_lt hle hb
      have hserved := serve_sound (n := setting.nil) hm.sys hlt (fun _ => trivial) hstands hwp
      rcases hserved.handle with ⟨t, -, ht⟩ | ⟨-, ht⟩
      · exact nomatch hnone.symm.trans ht
      · exact nomatch hnone.symm.trans ht
    · exact hold he hnone
  | crash died => cases he

def without (s : Sys) (t : Nat) : Sys := s.update t (fun x => { x with writes := [] })

/-- No other transaction sees a write of `t`: its commit is in no snapshot, and
all reads are as if `t` had written nothing. -/
def Unseen (n : NilValue) (s : Sys) (t : Nat) : Prop :=
  ∀ u y, u ≠ t → s.live u = some y → t ∉ y.seen ∧
    (∀ k, s.step n (.op (.get u k)) = some (s, some (.ok (.value
      ((lastWrite y.writes k).getD ((without s t).database y.seen k)))))) ∧
    ∀ p, ∃ es, s.step n (.op (.scanPrefix u p)) = some (s, some (.ok (.entries es))) ∧
      es.Pairwise (fun a b => a.key < b.key) ∧
      ∀ e, e ∈ es ↔ p <+: e.key ∧ e.value.isSome ∧
        e.value = (lastWrite y.writes e.key).getD ((without s t).database y.seen e.key)

/-- What was not committed is in no snapshot. -/
theorem unseen_of_not_committed (h : Inv s) (hb : s.begins < 2 ^ 64 - 1) (ht : t ∉ s.commits) :
    Unseen n s t := by
  intro u y hu hl
  have hseen : t ∉ y.seen := fun hin => ht ((h.seen (live_iff.mp hl).1).subset hin)
  have hdb : (without s t).database y.seen = s.database y.seen := by
    apply database_congr
    intro v hv
    exact Function.update_of_ne (ne_of_mem_of_not_mem hv hseen) _ _
  rw [hdb]
  exact ⟨hseen, h.get_step hb hl, h.scan_step hl⟩

theorem rest_of_error {e : Execution} {err : Error}
    (h : e.result = some (.error (.error err))) : e.rest = .fail (.error err) := by
  unfold Execution.result at h
  split at h
  · cases h
  · next heq =>
    cases h
    exact heq
  · cases h

/-- A call of `Session.Execute` that has returned an error never began a
transaction, or it has rolled it back: the store keeps nothing under its
version, and no transaction ever sees anything it wrote, neither before the
error nor later. -/
theorem failed_statement_unseen {w₀ : World} {before after : List Event} (h₀ : setting.Reaches w₀)
    (hbefore : setting.run w₀ before = some w) (hafter : setting.run w after = some w')
    (hb : w'.sys.begins < 2 ^ 64 - 1) {j : Nat} {e : Execution} {err : Error}
    (he : w.executions j = some e) (hfail : e.result = some (.error (.error err))) :
    (e.handle = none ∧
      ∃ i, Session.execute setting.codec (setting.walks.order i) e.sql = .fail (.error err)) ∨
    ∃ t x, e.handle = some t ∧ w'.sys.txns t = some x ∧ x.status = .rolledBack ∧
      (∀ key : MvccKey, key ≠ .nextVersion → key.versionField = x.state.version →
        recordAt w'.sys.store key = none) ∧
      Unseen setting.nil w₀.sys t ∧ Unseen setting.nil w'.sys t := by
  have hw := reaches_run h₀ hbefore
  have hle := run_world_begins_le hafter
  have hle₀ := run_world_begins_le hbefore
  have hrest := rest_of_error hfail
  obtain ⟨phase, hstands, hwp⟩ := (reaches_sound hw (by omega)).executions he
  rw [hrest] at hwp
  cases phase with
  | idle =>
    obtain ⟨i, hi⟩ := reaches_unbegun hw (by omega) he hstands
    exact .inl ⟨hstands, i, hi.symm.trans hrest⟩
  | running base view => exact hwp.elim
  | committed => exact hwp.elim
  | rolledBack =>
    obtain ⟨x, hown⟩ := hstands
    obtain ⟨t, ht, hx⟩ := hown.entry
    have hx' := run_world_ended hw hx (by simp [hown.status]) hafter hb
    have hinv' : Inv w'.sys := reaches_inv (reaches_run hw hafter) hb
    have hout : t ∉ w'.sys.commits := by
      intro hin
      obtain ⟨z, hz, hcommitted⟩ := hinv'.committed.mp hin
      rw [hx'] at hz
      cases hz
      simp [hown.status] at hcommitted
    have hout₀ : t ∉ w₀.sys.commits := fun hin =>
      hout ((run_world_commits hafter).subset ((run_world_commits hbefore).subset hin))
    refine .inr ⟨t, x, ht, hx', hown.status, ?_,
      unseen_of_not_committed (reaches_inv h₀ (by omega)) (by omega) hout₀,
      unseen_of_not_committed hinv' hb hout⟩
    have hstored := hinv'.stored hx'
    simp only [Stored, hown.status] at hstored
    intro key hkey hversion
    cases key with
    | nextVersion => exact absurd rfl hkey
    | txnActive v =>
      cases hversion
      exact hstored.1
    | txnWrite v k =>
      cases hversion
      exact hstored.2.2 k
    | version k v =>
      cases hversion
      exact hstored.2.1 k

/-- The error of a statement whose second row has a key that is taken, with the
message of its executor. -/
def duplicateKeyInT (format : String) : Error :=
  .wrap "engine: executing statement: %w" [] (.wrap format [.number 2]
    (.new "engine: duplicate primary key in table %q" [.bytes (ascii "t")]))

theorem failed_statement_unseen_insert : ∃ w w' e x, serialSetting.run .init (oneRow ++
      executed 2 "INSERT INTO t VALUES (2), (1);" 8) = some w ∧
    serialSetting.run w (executed 3 "SELECT * FROM t;" 1) = some w' ∧ w.executions 2 = some e ∧
    e.result = some (.error (.error (duplicateKeyInT "executor: inserting row %d: %w"))) ∧
    w'.sys.txns 2 = some x ∧ x.writes ≠ [] ∧ x.status = .rolledBack ∧
    (∀ key : MvccKey, key ≠ .nextVersion → key.versionField = x.state.version →
      recordAt w'.sys.store key = none) ∧
    (∃ y, w'.sys.live 3 = some y) ∧ Unseen .kept w'.sys 2 := by
  have hobserve : (serialSetting.run .init (oneRow ++
      executed 2 "INSERT INTO t VALUES (2), (1);" 8)).bind (fun w =>
        (serialSetting.run w (executed 3 "SELECT * FROM t;" 1)).bind fun w' =>
          (w.executions 2).bind fun e => (w'.sys.txns 2).bind fun x => (w'.sys.live 3).map fun _ =>
            (e.result, e.handle, w'.sys.begins, decide (x.writes = []))) =
      some (some (.error (.error (duplicateKeyInT "executor: inserting row %d: %w"))), some 2, 4,
        false) := by decide +kernel
  obtain ⟨w, hrun, hw⟩ := Option.bind_eq_some_iff.mp hobserve
  obtain ⟨w', hrun', hw⟩ := Option.bind_eq_some_iff.mp hw
  obtain ⟨e, he, hw⟩ := Option.bind_eq_some_iff.mp hw
  obtain ⟨x, hx, hw⟩ := Option.bind_eq_some_iff.mp hw
  obtain ⟨y, hl, hw⟩ := Option.map_eq_some_iff.mp hw
  simp only [Prod.mk.injEq, decide_eq_false_iff_not] at hw
  obtain ⟨hresult, hhandle, hbegins, hwrites⟩ := hw
  rcases failed_statement_unseen ⟨[], rfl⟩ hrun hrun' (by omega) he hresult with
    ⟨hnone, -⟩ | ⟨t, z, ht, hz, hstatus, hrecords, -, hunseen⟩
  · rw [hhandle] at hnone
    cases hnone
  · rw [hhandle] at ht
    cases ht
    rw [hx] at hz
    cases hz
    exact ⟨w, w', e, x, hrun, hrun', he, hresult, hx, hwrites, hstatus, hrecords, ⟨y, hl⟩, hunseen⟩

def twoRows : List Event :=
  executed 0 "CREATE TABLE t (a INT PRIMARY KEY);" 4 ++
    executed 1 "INSERT INTO t VALUES (1), (2);" 9

def twoRowsRecords : List (Bytes × Version × Bytes) :=
  (keyNamespaceTable :: ascii "t", 1,
      tableSerial.put (tableOf "t")) ::
    [Sql.Int64.wrap 1, Sql.Int64.wrap 2].map fun i =>
      (rowPrefixOfT ++ encodePrimaryKey (.integer i), 2, valueSerial.list.put (rowOfInteger i))

/-- When the versions have wrapped around, a statement that fails can take rows
with it that another one has committed. -/
theorem failed_update_removes_row_after_wrap : ∃ before w w₁ w₂ e e₁ e₂,
    serialSetting.Reaches before ∧
    serialSetting.run before (executed (2 ^ 64 + 1) "SELECT * FROM t;" 4) = some w₁ ∧
    w₁.executions (2 ^ 64 + 1) = some e₁ ∧
    e₁.result = some (.ok (.rows [ascii "a"]
      [rowOfInteger ⟨1, by decide⟩, rowOfInteger ⟨2, by decide⟩])) ∧
    serialSetting.run before (executed (2 ^ 64 + 1) "UPDATE t SET a = 5;" 9) = some w ∧
    w.executions (2 ^ 64 + 1) = some e ∧
    e.result = some (.error (.error (duplicateKeyInT "executor: updating row %d: %w"))) ∧
    serialSetting.run w (executed (2 ^ 64 + 2) "SELECT * FROM t;" 4) = some w₂ ∧
    w₂.executions (2 ^ 64 + 2) = some e₂ ∧
    e₂.result = some (.ok (.rows [ascii "a"] [rowOfInteger ⟨2, by decide⟩])) := by
  obtain ⟨before, hreaches, -, hresumes, -⟩ := world_rounds twoRowsRecords twoRows [0, 1]
    (a := 2) (b := 2) (2 ^ 64 - 1) (by decide) (by decide) (by decide) (by decide +kernel)
  have hread : (serialSetting.run (resumedWorld (committedData twoRowsRecords) (2 ^ 64 + 1)
      (2 ^ 64 + 1)) (executed (2 ^ 64 + 1) "SELECT * FROM t;" 4)).bind (fun v =>
        (v.executions (2 ^ 64 + 1)).map Execution.result) =
      some (some (.ok (.rows [ascii "a"]
        [rowOfInteger ⟨1, by decide⟩, rowOfInteger ⟨2, by decide⟩]))) := by decide +kernel
  have hupdate : (serialSetting.run (resumedWorld (committedData twoRowsRecords) (2 ^ 64 + 1)
      (2 ^ 64 + 1)) (executed (2 ^ 64 + 1) "UPDATE t SET a = 5;" 9)).bind (fun v =>
        (v.executions (2 ^ 64 + 1)).bind fun e =>
          (serialSetting.run v (executed (2 ^ 64 + 2) "SELECT * FROM t;" 4)).bind fun v' =>
            (v'.executions (2 ^ 64 + 2)).map fun e' => (e.result, e'.result)) =
      some (some (.error (.error (duplicateKeyInT "executor: updating row %d: %w"))),
        some (.ok (.rows [ascii "a"] [rowOfInteger ⟨2, by decide⟩]))) := by decide +kernel
  obtain ⟨v₁, hrun₁, hv₁⟩ := Option.bind_eq_some_iff.mp hread
  obtain ⟨e₁, he₁, hresult₁⟩ := Option.map_eq_some_iff.mp hv₁
  obtain ⟨v, hrun, hv⟩ := Option.bind_eq_some_iff.mp hupdate
  obtain ⟨e, he, hv⟩ := Option.bind_eq_some_iff.mp hv
  obtain ⟨v₂, hrun₂, hv⟩ := Option.bind_eq_some_iff.mp hv
  obtain ⟨e₂, he₂, hresult⟩ := Option.map_eq_some_iff.mp hv
  obtain ⟨w₁, hw₁, hres₁⟩ := hresumes.run (by simp [executed, calm]) hrun₁
  obtain ⟨w, hw, hres⟩ := hresumes.run (by simp [executed, calm]) hrun
  obtain ⟨w₂, hw₂, hres₂⟩ := hres.run (by simp [executed, calm]) hrun₂
  obtain ⟨hresult, hresult₂⟩ := Prod.mk.inj hresult
  exact ⟨before, w, w₁, w₂, e, e₁, e₂, hreaches, hw₁, hres₁.executions he₁, hresult₁, hw,
    hres.executions he, hresult, hw₂, hres₂.executions he₂, hresult₂⟩

end SpaceDB.Proofs
