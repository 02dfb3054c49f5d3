import SpaceDB.Engine.Sessions
import SpaceDB.Proofs.Crashes
import SpaceDB.Proofs.Phases

namespace SpaceDB.Proofs
open Lib Storage Sql Engine

variable {n : NilValue} {s s' : Sys} {t u : Nat} {x y : Txn} {inv : Db → Prop}
  {ok : Db → Bytes × Slice → Prop} {handle : Option Nat} {phase : Phase}

/-- `handle` is a transaction with this status, and all it has written
satisfies `ok`. -/
structure Owns (ok : Db → Bytes × Slice → Prop) (s : Sys) (handle : Option Nat) (status : Status)
    (x : Txn) : Prop where
  entry : ∃ t, handle = some t ∧ s.txns t = some x
  status : x.status = status
  writes : ∀ w ∈ x.writes, ok (s.database x.seen) w

def Stands (ok : Db → Bytes × Slice → Prop) (s : Sys) (handle : Option Nat) : Phase → Prop
  | .idle => handle = none
  | .running base view =>
    ∃ x, Owns ok s handle .live x ∧ base = s.database x.seen ∧ view = applyWrites base x.writes
  | .committed => ∃ x, Owns ok s handle .committed x
  | .rolledBack => ∃ x, Owns ok s handle .rolledBack x

theorem Owns.txn {status : Status} (h : Owns ok s (some t) status x) : s.txns t = some x := by
  obtain ⟨_, ht, hx⟩ := h.entry
  cases ht
  exact hx

theorem Owns.frame {status : Status} (h : Owns ok s (some t) status x) (ht : s'.txns t = some x)
    (hdb : s'.database x.seen = s.database x.seen) : Owns ok s' (some t) status x :=
  ⟨⟨t, rfl, ht⟩, h.status, fun w hw => hdb ▸ h.writes w hw⟩

/-- An operation changes nothing in the snapshot of a transaction. -/
theorem OpEffect.database {o : Op} {r : Except Error Answer} (he : OpEffect n s o s' r) (h : Inv s)
    (hy : s.txns u = some y) : s'.database y.seen = s.database y.seen := by
  apply database_congr
  intro w hw
  obtain ⟨z, hz, hc, -⟩ := h.visible_of_seen hy hw
  rw [hz]
  apply he.frame h.toBase hz
  exact .inr (by simp [hc])

/-- Others may change what is not the transaction's own. -/
theorem Stands.frame (hs : Stands ok s handle phase)
    (htxns : ∀ t, handle = some t → s'.txns t = s.txns t)
    (hdb : ∀ {t x}, s.txns t = some x → s'.database x.seen = s.database x.seen) :
    Stands ok s' handle phase := by
  have hkeep : ∀ {status x}, Owns ok s handle status x → Owns ok s' handle status x ∧
      s'.database x.seen = s.database x.seen := by
    intro status x hown
    obtain ⟨t, rfl, hx⟩ := hown.entry
    exact ⟨hown.frame ((htxns t rfl).trans hx) (hdb hx), hdb hx⟩
  cases phase with
  | idle => exact hs
  | running base view =>
    obtain ⟨x, hown, hbase, hview⟩ := hs
    exact ⟨x, (hkeep hown).1, hbase.trans (hkeep hown).2.symm, hview⟩
  | committed =>
    obtain ⟨x, hown⟩ := hs
    exact ⟨x, (hkeep hown).1⟩
  | rolledBack =>
    obtain ⟨x, hown⟩ := hs
    exact ⟨x, (hkeep hown).1⟩

/-- A call that the MVCC has served: it ran an operation on the caller's
transaction or began one, and the caller is in a phase that it expects. -/
structure Served (n : NilValue) (ok : Db → Bytes × Slice → Prop) (s : Sys) (handle : Option Nat)
    (c : MvccCall) (P : MvccRet c → Phase → Prop) : Prop where
  step : ∃ o r, s.step n (.op o) = some ((serve n c (s, handle)).2.1, some r)
  others : ∀ t, (serve n c (s, handle)).2.2 ≠ some t →
    (serve n c (s, handle)).2.1.txns t = s.txns t
  phase : ∃ phase, Stands ok (serve n c (s, handle)).2.1 (serve n c (s, handle)).2.2 phase ∧
    P (serve n c (s, handle)).1 phase
  handle : (∃ t, handle = some t ∧ (serve n c (s, handle)).2.2 = some t) ∨
    handle = none ∧ (serve n c (s, handle)).2.2 = some s.begins

theorem serve_eq {c : MvccCall} {o : Op} {r : Except Error Answer} (hop : c.op handle = some o)
    (hstep : s.step n (.op o) = some (s', some r)) :
    serve n c (s, handle) = (c.answer r, (s', c.next handle s.begins r)) := by
  unfold serve
  simp only [hop, Option.bind_some, hstep]

/-- A call that the MVCC serves by an operation which returns. -/
theorem served {c : MvccCall} {P : MvccRet c → Phase → Prop} {o : Op} {r : Except Error Answer}
    {handle' : Option Nat} (hop : c.op handle = some o)
    (hstep : s.step n (.op o) = some (s', some r)) (hnext : c.next handle s.begins r = handle')
    (hothers : ∀ t, handle' ≠ some t → s'.txns t = s.txns t)
    (hhandle : (∃ t, handle = some t ∧ handle' = some t) ∨ handle = none ∧ handle' = some s.begins)
    (hphase : ∃ phase, Stands ok s' handle' phase ∧ P (c.answer r) phase) :
    Served n ok s handle c P := by
  have heq : serve n c (s, handle) = (c.answer r, (s', handle')) := by
    rw [serve_eq hop hstep, hnext]
  refine ⟨⟨o, r, ?_⟩, ?_, ?_, ?_⟩
  · rw [heq]
    exact hstep
  · rw [heq]
    exact hothers
  · rw [heq]
    exact hphase
  · rw [heq]
    exact hhandle

/-- A call runs one operation, or it does nothing. -/
theorem serve_cases (n : NilValue) (c : MvccCall) (s : Sys) (handle : Option Nat) :
    (∃ o r, s.step n (.op o) = some ((serve n c (s, handle)).2.1, some r)) ∨
      (serve n c (s, handle)).2 = (s, handle) := by
  unfold serve
  split
  next s' r h =>
    obtain ⟨o, -, hstep⟩ := Option.bind_eq_some_iff.mp h
    exact .inl ⟨o, r, hstep⟩
  · exact .inr rfl

theorem serve_begins_le (n : NilValue) (c : MvccCall) (s : Sys) (handle : Option Nat) :
    s.begins ≤ (serve n c (s, handle)).2.1.begins := by
  rcases serve_cases n c s handle with ⟨o, r, hstep⟩ | heq
  · exact step_begins_le hstep
  · rw [heq]

section Calls
variable (h : Inv s)
include h

/-- Begin finds the committed database. -/
theorem served_begin (hb : s.begins < 2 ^ 64 - 1) (hinv : inv (s.database s.commits))
    {P : MvccRet .begin → Phase → Prop} (hrule : ∀ db, inv db → P (.ok ()) (.running db db)) :
    Served n ok s none .begin P := by
  obtain ⟨next, hnext, -⟩ := h.counter hb
  obtain ⟨active, hactive, hstep⟩ := step_begin (n := n) h.encoded hnext
  refine served rfl hstep rfl ?_ (.inr ⟨rfl, rfl⟩) ⟨_, ?_, hrule _ hinv⟩
  · intro t ht
    exact Function.update_of_ne (fun heq => ht (congrArg some heq.symm)) _ _
  have hold : ∀ u ∈ s.commits, (opened n s ⟨next, active⟩).txns u = s.txns u := by
    intro u hu
    obtain ⟨y, hy, -⟩ := h.committed.mp hu
    exact Function.update_of_ne (ne_of_lt (h.bound hy)) _ _
  refine ⟨⟨⟨next, active⟩, .live, [], s.commits⟩,
    ⟨⟨_, rfl, Function.update_self _ _ _⟩, rfl, ?_⟩, ?_, rfl⟩
  · exact List.forall_mem_nil _
  · exact (database_congr hold).symm

/-- A write that the MVCC has let through, or has refused. -/
theorem served_write {c : MvccCall} {P : MvccRet c → Phase → Prop} {k : Bytes} (value : Slice)
    (hown : Owns ok s (some t) .live x) (hop : c.op (some t) = some (writeOp t k value))
    (hanswer : ∀ r, c.next (some t) s.begins r = some t)
    (hok : ok (s.database x.seen) (k, value))
    (hdone : P (c.answer (.ok .unit)) (.running (s.database x.seen)
      (Function.update (applyWrites (s.database x.seen) x.writes) k value)))
    (hconflict : P (c.answer (.error writeConflict)) (.running (s.database x.seen)
      (applyWrites (s.database x.seen) x.writes))) :
    Served n ok s (some t) c P := by
  have hx := hown.txn
  have hl : s.live t = some x := live_iff.mpr ⟨hx, hown.status⟩
  by_cases hblocked : Blocked s.store x.state k
  · have hstep := step_conflict (n := n) h.encoded hl hblocked value
    refine served hop hstep (hanswer _) (fun _ _ => rfl) (.inl ⟨t, rfl, rfl⟩) ⟨_, ?_, hconflict⟩
    exact ⟨x, hown, rfl, rfl⟩
  · have hstep := step_write (n := n) h.encoded hl hblocked value
    obtain ⟨a, ha, heffect⟩ := op_effect h.encoded (by cases value <;> simp [writeOp]) hstep
    have hdb := heffect.database h hx
    have htxns := wrote_txns hx (written n x.state.version k value s.store) k value
    refine served hop hstep (hanswer _) ?_ (.inl ⟨t, rfl, rfl⟩) ⟨_, ?_, hdone⟩
    · intro u hu
      rw [htxns]
      exact Function.update_of_ne (fun heq => hu (congrArg some heq.symm)) _ _
    refine ⟨{ x with writes := x.writes ++ [(k, value)] },
      ⟨⟨t, rfl, ?_⟩, hown.status, ?_⟩, hdb.symm, ?_⟩
    · rw [htxns, Function.update_self]
    · intro w hw
      change ok (Sys.database _ x.seen) w
      rw [hdb]
      rcases List.mem_append.mp hw with hw | hw
      · exact hown.writes w hw
      · exact List.mem_singleton.mp hw ▸ hok
    · simp [applyWrites]

theorem served_end {c : MvccCall} {P : MvccRet c → Phase → Prop} {o : Op} {status : Status}
    {store : Store} (hown : Owns ok s (some t) .live x) (hop : c.op (some t) = some o)
    (hbegin : o ≠ .begin)
    (hstep : s.step n (.op o) = some (s.record o (.ok .unit) store, some (.ok .unit)))
    (htxns : (s.record o (.ok .unit) store).txns =
      Function.update s.txns t (some { x with status }))
    (hanswer : ∀ r, c.next (some t) s.begins r = some t)
    (hphase : ∀ s', Owns ok s' (some t) status { x with status } →
      ∃ phase, Stands ok s' (some t) phase ∧ P (c.answer (.ok .unit)) phase) :
    Served n ok s (some t) c P := by
  have hx := hown.txn
  obtain ⟨a, ha, heffect⟩ := op_effect h.encoded (fun ho => absurd ho hbegin) hstep
  refine served hop hstep (hanswer _) ?_ (.inl ⟨t, rfl, rfl⟩) (hphase _ ⟨⟨t, rfl, ?_⟩, rfl, ?_⟩)
  · intro u hu
    rw [htxns]
    exact Function.update_of_ne (fun heq => hu (congrArg some heq.symm)) _ _
  · rw [htxns, Function.update_self]
  · intro w hw
    rw [heffect.database h hx]
    exact hown.writes w hw

/-- The MVCC keeps to the rule of the phases. -/
theorem serve_sound (hb : s.begins < 2 ^ 64 - 1) (hinv : handle = none → inv (s.database s.commits))
    (hs : Stands ok s handle phase) {c : MvccCall} {P : MvccRet c → Phase → Prop}
    (hrule : phaseRule inv ok c P phase) : Served n ok s handle c P := by
  cases phase with
  | idle =>
    cases c with
    | begin =>
      cases hs
      exact served_begin h hb (hinv rfl) hrule
    | _ => exact hrule.elim
  | running base view =>
    obtain ⟨x, hown, rfl, rfl⟩ := hs
    obtain ⟨t, rfl, hx⟩ := hown.entry
    have hl : s.live t = some x := live_iff.mpr ⟨hx, hown.status⟩
    cases c with
    | begin => exact hrule.elim
    | get k =>
      refine served rfl (h.get_step hb hl k) rfl (fun _ _ => rfl) (.inl ⟨t, rfl, rfl⟩)
        ⟨.running _ _, ⟨x, hown, rfl, rfl⟩, ?_⟩
      rw [← applyWrites_eq]
      exact hrule
    | scanPrefix p =>
      obtain ⟨es, hstep, -, hes⟩ := h.scan_step (n := n) hl p
      refine served rfl hstep rfl (fun _ _ => rfl) (.inl ⟨t, rfl, rfl⟩)
        ⟨.running _ _, ⟨x, hown, rfl, rfl⟩, hrule es ?_⟩
      intro e he
      rw [applyWrites_eq]
      exact (hes e).mp he
    | set k v => exact served_write h (some v) hown rfl (fun _ => rfl) hrule.1 hrule.2.1 hrule.2.2
    | delete k => exact served_write h none hown rfl (fun _ => rfl) hrule.1 hrule.2.1 hrule.2.2
    | commit =>
      obtain ⟨ks, -, hrun, -⟩ := commit_spec (n := n) h.encoded x.state
      refine served_end h hown rfl Op.noConfusion (step_op (program_commit hl) hrun)
        (record_commit_txns hx _)
        (fun _ => rfl) (fun s' hown' => ⟨.committed, ⟨_, hown'⟩, hrule⟩)
    | rollback =>
      obtain ⟨ks, -, hrun, -⟩ := rollback_spec (n := n) h.encoded x.state
      refine served_end h hown rfl Op.noConfusion (step_op (program_rollback hl) hrun)
        (record_rollback_txns hx _) (fun _ => rfl)
          (fun s' hown' => ⟨.rolledBack, ⟨_, hown'⟩, hrule⟩)
  | committed => cases c <;> exact hrule.elim
  | rolledBack => cases c <;> exact hrule.elim

end Calls

inductive WorldEffect (setting : Setting) (w : World) : World → Prop where
  | start (sql : Bytes) : WorldEffect setting w (setting.start w sql)
  | advance {j : Nat} {sql : Bytes} {handle : Option Nat} {c : MvccCall}
      {next : MvccRet c → KvM ResultSet}
      (pending : w.executions j = some ⟨sql, handle, .call c next⟩) :
      WorldEffect setting w { w with
        sys := (serve setting.nil c (w.sys, handle)).2.1
        executions := Function.update w.executions j (some ⟨sql,
          (serve setting.nil c (w.sys, handle)).2.2,
          next (serve setting.nil c (w.sys, handle)).1⟩) }
  | crash {o : Op} {calls : Nat} {s : Sys} {r : Result}
      (died : w.sys.step setting.nil (.crash o calls) = some (s, r)) :
      WorldEffect setting w { w with sys := s, executions := fun _ => none }

section Worlds
variable {setting : Setting} {w w' : World}

/-- An event starts a statement, lets one make a call, or ends the process. -/
theorem world_effect {e : Event} (h : setting.step w e = some w') : WorldEffect setting w w' := by
  cases e with
  | start sql =>
    cases h
    exact .start sql
  | advance j =>
    simp only [Setting.step] at h
    split at h
    next sql handle c next hpending =>
      cases h
      exact .advance hpending
    · cases h
  | crash j calls =>
    simp only [Setting.step] at h
    split at h
    next sql handle c next hpending =>
      obtain ⟨⟨s, r⟩, hdied, rfl⟩ := Option.map_eq_some_iff.mp h
      obtain ⟨o, -, hstep⟩ := Option.bind_eq_some_iff.mp hdied
      exact .crash hstep
    · cases h

theorem WorldEffect.sys_step (h : WorldEffect setting w w') :
    w'.sys = w.sys ∨ ∃ st r, st.reliable ∧ w.sys.step setting.nil st = some (w'.sys, r) := by
  cases h with
  | start sql => exact .inl rfl
  | @advance j sql handle c next pending =>
    rcases serve_cases setting.nil c w.sys handle with ⟨o, r, hstep⟩ | heq
    · exact .inr ⟨.op o, some r, trivial, hstep⟩
    · exact .inl (congrArg Prod.fst heq)
  | @crash o calls s r died => exact .inr ⟨.crash o calls, r, trivial, died⟩

theorem WorldEffect.begins_le (h : WorldEffect setting w w') : w.sys.begins ≤ w'.sys.begins := by
  rcases h.sys_step with heq | ⟨st, r, -, hstep⟩
  · rw [heq]
  · exact step_begins_le hstep

/-- What every event keeps, a run keeps. -/
theorem world_induction {P : World → Prop} (hstep : ∀ {w w'}, P w → WorldEffect setting w w' → P w')
    {events : List Event} (hw : P w) (h : setting.run w events = some w') : P w' := by
  induction events generalizing w with
  | nil =>
    cases h
    exact hw
  | cons e events ih =>
    obtain ⟨m, hm, hrun⟩ := Option.bind_eq_some_iff.mp h
    exact ih (hstep hw (world_effect hm)) hrun

theorem run_world_begins_le {events : List Event} (h : setting.run w events = some w') :
    w.sys.begins ≤ w'.sys.begins :=
  world_induction (P := fun m => w.sys.begins ≤ m.sys.begins)
    (fun hle heffect => le_trans hle heffect.begins_le) (le_refl _) h

/-- A process that died has left what its transactions had written, and to each
one its snapshot. -/
theorem CrashEffect.entry {y' : Txn} (he : CrashEffect n s s') (hy' : s'.txns u = some y') :
    ∃ y, s.txns u = some y ∧ y'.writes = y.writes ∧ y'.seen = y.seen := by
  have hlose : ∀ {m : Sys} {z : Txn}, m.lose.txns u = some z →
      ∃ y, m.txns u = some y ∧ z.writes = y.writes ∧ z.seen = y.seen := by
    intro m z hz
    obtain ⟨y, hy, rfl⟩ := lose_txns hz
    refine ⟨y, hy, ?_⟩
    split
    · exact ⟨rfl, rfl⟩
    · exact ⟨rfl, rfl⟩
  cases he with
  | @committed t x ks live writes =>
    obtain ⟨y, hy, hwrites, hseen⟩ := hlose hy'
    have hx := (live_iff.mp live).1
    rw [record_commit_txns hx, Function.update_apply] at hy
    by_cases hu : u = t
    · rw [if_pos hu] at hy
      cases hy
      exact ⟨x, hu ▸ hx, hwrites, hseen⟩
    · rw [if_neg hu] at hy
      exact ⟨y, hy, hwrites, hseen⟩
  | _ => exact hlose hy'

theorem database_of_writes {us : List Nat} (h : ∀ u ∈ us, writesOf s' u = writesOf s u) :
    s'.database us = s.database us := by
  induction us using List.reverseRecOn with
  | nil => rfl
  | append_singleton us u ih =>
    funext k
    rw [database_append, database_append, ih (fun w hw => h w (by simp [hw])), h u (by simp)]

/-- A crash changes no committed write. -/
theorem crash_database {o : Op} {calls : Nat} {r : Result} (h : Inv s) (hb : s'.begins < 2 ^ 64)
    (hstep : s.step n (.crash o calls) = some (s', r)) (hy : s.txns u = some y) :
    s'.database y.seen = s.database y.seen := by
  have heffect := crash_effect h.encoded (h.counts hstep hb) (fun _ _ hl => h.marker hl) hstep
  apply database_of_writes
  intro w hw
  obtain ⟨z, hz, -, -⟩ := h.visible_of_seen hy hw
  obtain ⟨z', hz', -⟩ := step_snapshot (h.bound hz) hz hstep
  obtain ⟨z₀, hz₀, hwrites, -⟩ := heffect.entry hz'
  rw [hz] at hz₀
  cases hz₀
  rw [writesOf_eq hz', writesOf_eq hz, hwrites]

/-- All executions keep to the phases, each on a transaction of its own. -/
structure Sound (inv : Db → Prop) (ok : Db → Bytes × Slice → Prop) (w : World) : Prop where
  sys : Inv w.sys
  writes : ∀ {t x}, w.sys.txns t = some x → ∀ v ∈ x.writes, ok (w.sys.database x.seen) v
  executions : ∀ {j e}, w.executions j = some e →
    ∃ phase, Stands ok w.sys e.handle phase ∧ e.rest.wp (phaseRule inv ok) Ended phase
  distinct : ∀ {i j e e' t}, w.executions i = some e → w.executions j = some e' →
    e.handle = some t → e'.handle = some t → i = j

theorem sound_init : Sound inv ok .init := by
  refine ⟨inv_init, ?_, ?_, ?_⟩
  · intro t x h
    cases h
  · intro j e h
    cases h
  · intro i j e e' t h
    cases h

theorem Stands.entry (h : Stands ok s (some t) phase) : ∃ x, s.txns t = some x := by
  cases phase with
  | idle => cases h
  | running base view =>
    obtain ⟨x, hown, -⟩ := h
    exact ⟨x, hown.txn⟩
  | committed =>
    obtain ⟨x, hown⟩ := h
    exact ⟨x, hown.txn⟩
  | rolledBack =>
    obtain ⟨x, hown⟩ := h
    exact ⟨x, hown.txn⟩

theorem Stands.writes (h : Stands ok s (some t) phase) (hx : s.txns t = some x) :
    ∀ v ∈ x.writes, ok (s.database x.seen) v := by
  have hown : ∀ {status y}, Owns ok s (some t) status y → ∀ v ∈ x.writes,
      ok (s.database x.seen) v := by
    intro status y hown
    have hy := hown.txn
    rw [hx] at hy
    cases hy
    exact hown.writes
  cases phase with
  | idle => cases h
  | running base view =>
    obtain ⟨y, hy, -⟩ := h
    exact hown hy
  | committed =>
    obtain ⟨y, hy⟩ := h
    exact hown hy
  | rolledBack =>
    obtain ⟨y, hy⟩ := h
    exact hown hy

/-- Executions each on a transaction of its own, of which `K` says what is left
to do in their phases. -/
structure Executing (ok : Db → Bytes × Slice → Prop) (K : KvM ResultSet → Phase → Prop) (s : Sys)
    (executions : Nat → Option Execution) : Prop where
  sys : Inv s
  each : ∀ {j e}, executions j = some e → ∃ phase, Stands ok s e.handle phase ∧ K e.rest phase
  distinct : ∀ {i j e e' t}, executions i = some e → executions j = some e' →
    e.handle = some t → e'.handle = some t → i = j

section Executing
variable {K : KvM ResultSet → Phase → Prop} {executions : Nat → Option Execution}

/-- A statement starts without a transaction. -/
theorem Executing.start (h : Executing ok K s executions) (j : Nat) (sql : Bytes)
    {rest : KvM ResultSet} (hrest : K rest .idle) :
    Executing ok K s (Function.update executions j (some ⟨sql, none, rest⟩)) := by
  have hold : ∀ {i e}, Function.update executions j (some ⟨sql, none, rest⟩) i = some e →
      executions i = some e ∨ e = ⟨sql, none, rest⟩ := by
    intro i e hi
    rw [Function.update_apply] at hi
    split_ifs at hi
    · exact .inr (Option.some.inj hi).symm
    · exact .inl hi
  refine ⟨h.sys, ?_, ?_⟩
  · intro i e hi
    rcases hold hi with hi | rfl
    · exact h.each hi
    · exact ⟨.idle, rfl, hrest⟩
  · intro i k e e' t hi hk ht ht'
    rcases hold hi with hi | rfl
    · rcases hold hk with hk | rfl
      · exact h.distinct hi hk ht ht'
      · cases ht'
    · cases ht

/-- One call of an execution that no other one shares its transaction with. -/
theorem Executing.call (h : Executing ok K s executions) (j : Nat) (sql : Bytes) {c : MvccCall}
    {next : MvccRet c → KvM ResultSet}
    (halone : ∀ {i e t}, i ≠ j → executions i = some e → e.handle = some t → handle ≠ some t)
    (hserved : Served n ok s handle c (fun r phase => K (next r) phase))
    (hb : (serve n c (s, handle)).2.1.begins < 2 ^ 64) :
    Executing ok K (serve n c (s, handle)).2.1 (Function.update executions j (some ⟨sql,
      (serve n c (s, handle)).2.2, next (serve n c (s, handle)).1⟩)) := by
  obtain ⟨o, r, hstep⟩ := hserved.step
  obtain ⟨phase', hstands', hnext⟩ := hserved.phase
  have hhandle := hserved.handle
  have hothers := hserved.others
  generalize (serve n c (s, handle)).2.1 = s' at *
  generalize (serve n c (s, handle)).2.2 = handle' at *
  obtain ⟨a, ha, heffect⟩ := op_effect h.sys.encoded (h.sys.counts hstep hb) hstep
  -- the others are on other transactions, also than one that has just begun
  have hother : ∀ {i e}, i ≠ j → executions i = some e → ∀ t, e.handle = some t →
      handle' ≠ some t := by
    intro i e hi he t ht
    rcases hhandle with ⟨u, rfl, rfl⟩ | ⟨-, rfl⟩
    · exact halone hi he ht
    · obtain ⟨phase₁, hstands₁, -⟩ := h.each he
      rw [ht] at hstands₁
      obtain ⟨x, hx⟩ := hstands₁.entry
      intro heq
      have := h.sys.bound hx
      cases heq
      omega
  refine ⟨heffect.inv h.sys hb, ?_, ?_⟩
  · intro i e hi
    rw [Function.update_apply] at hi
    split_ifs at hi with hij
    · cases hi
      exact ⟨phase', hstands', hnext⟩
    · obtain ⟨phase₁, hstands₁, hwp₁⟩ := h.each hi
      refine ⟨phase₁, hstands₁.frame ?_ (fun hx => heffect.database h.sys hx), hwp₁⟩
      exact fun t ht => hothers t (hother hij hi t ht)
  · intro i k e e' t hi hk ht ht'
    rw [Function.update_apply] at hi hk
    split_ifs at hi hk with hij hkj hkj
    · rw [hij, hkj]
    · cases hi
      exact absurd ht (hother hkj hk t ht')
    · cases hk
      exact absurd ht' (hother hij hi t ht)
    · exact h.distinct hi hk ht ht'

end Executing

theorem Sound.executing (h : Sound inv ok w) :
    Executing ok (fun rest phase => rest.wp (phaseRule inv ok) Ended phase) w.sys w.executions :=
  ⟨h.sys, h.executions, h.distinct⟩

theorem Sound.start (h : Sound inv ok w) {sql : Bytes}
    (hstart : (Session.execute setting.codec (setting.walks.order w.started) sql).wp
      (phaseRule inv ok) Ended .idle) : Sound inv ok (setting.start w sql) := by
  have hnext := h.executing.start w.started sql hstart
  exact ⟨h.sys, h.writes, hnext.each, hnext.distinct⟩

/-- A call of one statement keeps all executions in their phases. -/
theorem Sound.advance (h : Sound inv ok w) {j : Nat} {sql : Bytes} {handle : Option Nat}
    {c : MvccCall} {next : MvccRet c → KvM ResultSet}
    (hpending : w.executions j = some ⟨sql, handle, .call c next⟩)
    (hb : (serve setting.nil c (w.sys, handle)).2.1.begins < 2 ^ 64 - 1)
    (hcommits : inv (w.sys.database w.sys.commits)) :
    Sound inv ok { w with
      sys := (serve setting.nil c (w.sys, handle)).2.1
      executions := Function.update w.executions j (some ⟨sql,
        (serve setting.nil c (w.sys, handle)).2.2,
        next (serve setting.nil c (w.sys, handle)).1⟩) } := by
  obtain ⟨phase, hstands, hwp⟩ := h.executions hpending
  change Stands ok w.sys handle phase at hstands
  have hle := serve_begins_le setting.nil c w.sys handle
  have hserved := serve_sound (n := setting.nil) h.sys (by omega) (fun _ => hcommits) hstands hwp
  have halone : ∀ {i e t}, i ≠ j → w.executions i = some e → e.handle = some t → handle ≠ some t :=
    fun hi he ht heq => hi (h.distinct he hpending ht heq)
  have hnext := h.executing.call j sql halone hserved (by omega)
  refine ⟨hnext.sys, ?_, hnext.each, hnext.distinct⟩
  obtain ⟨o, r, hstep⟩ := hserved.step
  obtain ⟨phase', hstands', -⟩ := hserved.phase
  obtain ⟨a, ha, heffect⟩ := op_effect h.sys.encoded (h.sys.counts hstep (by omega)) hstep
  intro t x hx
  by_cases ht : (serve setting.nil c (w.sys, handle)).2.2 = some t
  · exact Stands.writes (ht ▸ hstands') hx
  · have hold : w.sys.txns t = some x := (hserved.others t ht).symm.trans hx
    change ∀ v ∈ x.writes, ok ((serve setting.nil c (w.sys, handle)).2.1.database x.seen) v
    rw [heffect.database h.sys hold]
    exact h.writes hold

/-- After a crash there are no executions. -/
theorem Sound.crash (h : Sound inv ok w) {o : Op} {calls : Nat} {r : Result}
    (hdied : w.sys.step setting.nil (.crash o calls) = some (s', r)) (hb : s'.begins < 2 ^ 64) :
    Sound inv ok { w with sys := s', executions := fun _ => none } := by
  have heffect := crash_effect h.sys.encoded (h.sys.counts hdied hb) (fun _ _ hl => h.sys.marker hl)
    hdied
  refine ⟨heffect.inv h.sys hb, ?_, ?_, ?_⟩
  · intro t x' hx'
    obtain ⟨x, hx, hwrites, hseen⟩ := heffect.entry hx'
    change ∀ v ∈ x'.writes, ok (s'.database x'.seen) v
    rw [hwrites, hseen, crash_database h.sys hb hdied hx]
    exact h.writes hx
  · intro j e he
    cases he
  · intro i j e e' t he
    cases he

section Runs
variable (inv : Db → Prop) (ok : Db → Bytes × Slice → Prop)
  (hcommits : ∀ s : Sys, Inv s → (∀ {t x}, s.txns t = some x → ∀ v ∈ x.writes,
    ok (s.database x.seen) v) → inv (s.database s.commits))
  (hstart : ∀ i sql, (Session.execute setting.codec (setting.walks.order i) sql).wp
    (phaseRule inv ok) Ended .idle)
include hcommits hstart

/-- If every execution starts well, and whatever they have committed makes a
good database, then all of them keep to the phases, and with that to whatever
follows from it event by event. -/
theorem sound_induction {P : World → Prop}
    (hstep : ∀ {m m'}, Sound inv ok m → P m → WorldEffect setting m m' →
      m'.sys.begins < 2 ^ 64 - 1 → P m')
    {events : List Event} (hw : Sound inv ok w) (hp : P w) (h : setting.run w events = some w')
    (hb : w'.sys.begins < 2 ^ 64 - 1) : Sound inv ok w' ∧ P w' := by
  refine world_induction (P := fun m => m.sys.begins < 2 ^ 64 - 1 → Sound inv ok m ∧ P m) ?_
    (fun _ => ⟨hw, hp⟩) h hb
  intro m m' hm heffect hb
  obtain ⟨hm, hpm⟩ := hm (lt_of_le_of_lt heffect.begins_le hb)
  refine ⟨?_, hstep hm hpm heffect hb⟩
  cases heffect with
  | start sql => exact hm.start (hstart _ sql)
  | advance pending => exact hm.advance pending hb (hcommits m.sys hm.sys hm.writes)
  | crash died => exact hm.crash died (lt_trans hb (by decide))

theorem run_sound {events : List Event} (hw : Sound inv ok w) (h : setting.run w events = some w')
    (hb : w'.sys.begins < 2 ^ 64 - 1) : Sound inv ok w' :=
  (sound_induction inv ok hcommits hstart (fun _ _ _ _ => trivial) hw trivial h hb).1

end Runs

end Worlds

end SpaceDB.Proofs
