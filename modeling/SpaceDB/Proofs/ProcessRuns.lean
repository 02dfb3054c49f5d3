import SpaceDB.Engine.Process
import SpaceDB.Lib.Simulation
import SpaceDB.Proofs.DiskRefinement
import SpaceDB.Proofs.SessionRuns

namespace SpaceDB.Proofs
open Lib Storage Sql Engine

variable {n : NilValue} {names : TempNames} {name : Path} {s s' : Sys} {t : Nat} {x : Txn}
  {handle : Option Nat} {txn : Option TransactionState} {phase : Phase} {M : Store} {d : DiskWorld}

/-- The records that a call appends are within the limits of the log. -/
def Fitting (c : EngineCall) : Prop := ∀ r, recordOf c = some r → r.Fits

/-- Within the limits of the log the specification is the ordered engine. -/
theorem limited_fitting {c : EngineCall} (hc : Fitting c) (M : Store) :
    limitedEngine c M = orderedEngine .emptied c M := by
  cases c with
  | set key value =>
    have hcheck := (checkEntrySize_iff _).mpr (hc _ rfl)
    simp only [Option.getD_some, Option.isNone_some] at hcheck
    simp only [limitedEngine, hcheck]
  | delete key =>
    have hcheck := (checkEntrySize_iff _).mpr (hc _ rfl)
    simp only [Option.getD_none, Option.isNone_none] at hcheck
    simp only [limitedEngine, hcheck]
  | _ => rfl

theorem disk_simulatesOn (names : TempNames) (name : Path) :
    SimulatesOn Fitting (diskEngine names) (orderedEngine .emptied) (Holds name) := by
  intro c w M hc hholds
  rw [← limited_fitting hc]
  exact diskEngine_simulates names name c w M hholds

/-- A process that opens the file finds what the last one left. -/
theorem Holds.reopen (h : Holds name d M) (names : TempNames) (compact : Bool) :
    Holds name ((diskBackend names name).reopen compact d) M := by
  obtain ⟨rs, hfits, hf, -, rfl⟩ := h
  have hlog : (({ d.disk with locked := [] } : Disk).files.find? name).getD [] = encodeLog rs := by
    simp [hf]
  have hfree : lockPath name ∉ ({ d.disk with locked := [] } : Disk).locked := by simp
  cases compact with
  | false =>
    obtain ⟨e, disk', hrun, hholds⟩ := newDiskEngine_holds names hfree hfits hlog
    simp only [diskBackend, Bool.false_eq_true, if_false, hrun]
    exact hholds
  | true =>
    obtain ⟨e, disk', hrun, hholds⟩ := newDiskEngineCompact_holds names hfree hfits hlog
    simp only [diskBackend, if_true, hrun]
    exact hholds

theorem record_store (s : Sys) (o : Op) (r : Except Error Answer) (store : Store) :
    (s.record o r store).store = store := by
  cases r with
  | error e => cases o <;> rfl
  | ok a =>
    cases o with
    | begin => cases a <;> rfl
    | _ => rfl

theorem crashed_store (s : Sys) (o : Op) (store : Store) : (s.crashed o store).store = store := by
  cases o with
  | commit t =>
    simp only [Sys.crashed]
    split
    · split
      · exact record_store s _ _ store
      · rfl
    · rfl
  | _ => rfl

def InHand (s : Sys) : Option Nat → Option TransactionState → Prop
  | none, none => True
  | some t, some state => ∃ x, s.txns t = some x ∧ x.state = state
  | _, _ => False

/-- A transaction in hand stays the same through the steps of others. -/
theorem InHand.step {st : Step} {r : Result} (h : InHand s handle txn) (hinv : Inv s)
    (hstep : s.step n st = some (s', r)) : InHand s' handle txn := by
  cases handle with
  | none => cases txn <;> exact h
  | some t =>
    cases txn with
    | none => exact h
    | some state =>
      obtain ⟨x, hx, rfl⟩ := h
      obtain ⟨x', hx', hsame⟩ := step_snapshot (hinv.bound hx) hx hstep
      exact ⟨x', hx', hsame.1⟩

/-- A call of a session as the MVCC serves it, and as the program on the engine
that it is. -/
structure Agrees (n : NilValue) (s : Sys) (handle : Option Nat) (txn : Option TransactionState)
    (c : MvccCall) : Prop where
  answer : (serve n c (s, handle)).1 =
    ((c.program txn).run (orderedEngine n) s.store).1.map Prod.fst
  store : (serve n c (s, handle)).2.1.store = ((c.program txn).run (orderedEngine n) s.store).2
  hand : InHand (serve n c (s, handle)).2.1 (serve n c (s, handle)).2.2
    (((c.program txn).run (orderedEngine n) s.store).1.toOption.elim txn Prod.snd)
  crash : ∀ calls, ∃ o, c.op handle = some o ∧ s.step n (.crash o calls) =
    some (s.crashed o ((c.program txn).upTo (orderedEngine n) calls s.store), none)

/-- The operation is the program of the call, with its result put in a frame. -/
theorem step_framed {α : Type} {o : Op} {q : EngineProg α} {f : α → Answer}
    (hprogram : s.program o = some (q.bind fun a => .done (f a))) :
    s.step n (.op o) = some (s.record o ((q.run (orderedEngine n) s.store).1.map f)
      (q.run (orderedEngine n) s.store).2, some ((q.run (orderedEngine n) s.store).1.map f)) := by
  simp only [Sys.step, hprogram, Option.map_some, Prog.run_map]

theorem crash_framed {α : Type} {o : Op} {q : EngineProg α} {f : α → Answer}
    (hprogram : s.program o = some (q.bind fun a => .done (f a))) (calls : Nat) :
    s.step n (.crash o calls) =
    some (s.crashed o (q.upTo (orderedEngine n) calls s.store), none) := by
  simp only [Sys.step, hprogram, Option.map_some, Prog.upTo_map]

theorem agrees_begin (s : Sys) : Agrees n s none none .begin := by
  have hprogram : s.program .begin = some (MVCC.begin.bind fun st => .done (.handle st)) := rfl
  have hstep := step_framed (n := n) hprogram
  have hrun : (MvccCall.program none .begin).run (orderedEngine n) s.store =
      ((MVCC.begin.run (orderedEngine n) s.store).1.map fun st => ((), some st),
        (MVCC.begin.run (orderedEngine n) s.store).2) := Prog.run_map _ _ _ _
  have hcrash := fun calls => crash_framed (n := n) hprogram calls
  refine ⟨?_, ?_, ?_, fun calls => ⟨.begin, rfl, ?_⟩⟩
  · rw [serve_eq rfl hstep, hrun]
    cases (MVCC.begin.run (orderedEngine n) s.store).1 <;> rfl
  · rw [serve_eq rfl hstep, hrun]
    exact record_store _ _ _ _
  · rw [serve_eq rfl hstep, hrun]
    cases (MVCC.begin.run (orderedEngine n) s.store).1 with
    | ok st => exact ⟨_, Function.update_self _ _ _, rfl⟩
    | error e => exact trivial
  · rw [hcrash calls, show MvccCall.program none .begin =
      MVCC.begin.bind fun st => .done ((), some st) from rfl, Prog.upTo_map]

/-- A method of a transaction runs the operation that it stands for. -/
theorem agrees_method (h : Inv s) (hx : s.txns t = some x) {c : MvccCall} {o : Op}
    {q : EngineProg c.Val} {f : c.Val → Answer} (hop : c.op (some t) = some o)
    (hprogram : s.program o = some (q.bind fun a => .done (f a)))
    (hcall : c.program (some x.state) = q.bind fun a => .done (a, some x.state))
    (hanswer : ∀ r : Except Error c.Val, c.answer (r.map f) = r)
    (hnext : ∀ r, c.next (some t) s.begins r = some t) : Agrees n s (some t) (some x.state) c := by
  have hstep := step_framed (n := n) hprogram
  have hhand : InHand s (some t) (some x.state) := ⟨x, hx, rfl⟩
  have hrun : (c.program (some x.state)).run (orderedEngine n) s.store =
      ((q.run (orderedEngine n) s.store).1.map fun a => (a, some x.state),
        (q.run (orderedEngine n) s.store).2) := by
    rw [hcall]
    exact Prog.run_map _ _ _ _
  refine ⟨?_, ?_, ?_, fun calls => ⟨o, hop, ?_⟩⟩
  · rw [serve_eq hop hstep, hrun, hanswer]
    cases (q.run (orderedEngine n) s.store).1 <;> rfl
  · rw [serve_eq hop hstep, hrun]
    exact record_store _ _ _ _
  · have hsame : ((q.run (orderedEngine n) s.store).1.map fun a => (a, some x.state)).toOption.elim
        (some x.state) Prod.snd = some x.state := by
      cases (q.run (orderedEngine n) s.store).1 <;> rfl
    rw [serve_eq hop hstep, hrun, hnext, hsame]
    exact hhand.step h hstep
  · rw [crash_framed hprogram calls, hcall, Prog.upTo_map]

/-- A call that a session makes in its phase. -/
theorem agrees_phase (h : Inv s) (hstands : Stands (fun _ _ => True) s handle phase)
    {c : MvccCall} {next : MvccRet c → KvM ResultSet}
    (hwp : (Prog.call c next : KvM ResultSet).wp freeRule Ended phase)
    (hhand : InHand s handle txn) : Agrees n s handle txn c := by
  cases phase with
  | committed | rolledBack => cases c <;> exact hwp.elim
  | idle =>
    cases hstands
    cases txn with
    | some state => exact hhand.elim
    | none =>
      cases c with
      | begin => exact agrees_begin s
      | _ => exact hwp.elim
  | running base view =>
    obtain ⟨x, hown, -, -⟩ := hstands
    obtain ⟨t, rfl, hx⟩ := hown.entry
    have hl : s.live t = some x := live_iff.mpr ⟨hx, hown.status⟩
    cases txn with
    | none => exact hhand.elim
    | some state =>
      obtain ⟨y, hy, rfl⟩ := hhand
      rw [hx] at hy
      cases hy
      cases c with
      | begin => exact hwp.elim
      | _ =>
        refine agrees_method h hx rfl (by simp only [Sys.program, hl, Option.map_some]; rfl) rfl
          (fun r => ?_) (fun _ => rfl)
        cases r <;> rfl

section Processes
variable {setting : Setting} {p p' : Process DiskWorld} {w : World}

/-- The process over the file is where the sessions over an ordered map are. -/
structure Matches (name : Path) (p : Process DiskWorld) (w : World) : Prop where
  data : Holds name p.data w.sys.store
  started : p.started = w.started
  running : ∀ {j e}, p.running j = some e → ∃ handle,
    w.executions j = some ⟨e.sql, handle, e.rest⟩ ∧ InHand w.sys handle e.txn

theorem Matches.start (h : Matches name p w) (sql : Bytes) :
    Matches name (p.start setting.codec setting.walks sql) (setting.start w sql) := by
  refine ⟨h.data, congrArg (· + 1) h.started, ?_⟩
  intro j e he
  change Function.update _ _ _ _ = _ at he
  change ∃ handle, Function.update _ _ _ _ = _ ∧ _
  rw [h.started, Function.update_apply] at he
  rw [Function.update_apply]
  split_ifs at he ⊢ with hj
  · cases he
    exact ⟨none, rfl, trivial⟩
  · exact h.running he

/-- What the phases say about a pending call. -/
theorem Matches.pending (h : Matches name p w) (hsound : Sound (fun _ => True) (fun _ _ => True) w)
    {j : Nat} {sql : Bytes} {c : MvccCall} {next : MvccRet c → KvM ResultSet}
    (he : p.running j = some ⟨sql, txn, .call c next⟩) :
    ∃ handle, w.executions j = some ⟨sql, handle, .call c next⟩ ∧ Agrees n w.sys handle txn c := by
  obtain ⟨handle, hpending, hhand⟩ := h.running he
  obtain ⟨phase, hstands, hwp⟩ := hsound.executions hpending
  exact ⟨handle, hpending, agrees_phase hsound.sys hstands hwp hhand⟩

/-- A call of a session over the file. -/
theorem Matches.advance (h : Matches name p w) (hnil : setting.nil = .emptied)
    (hsound : Sound (fun _ => True) (fun _ _ => True) w) {j : Nat}
    (hfits : ∀ c ∈ p.calls (diskBackend names name) (.advance j), Fitting c)
    (hstep : p.step (diskBackend names name) setting.codec setting.walks (.advance j) = some p') :
    ∃ w', setting.step w (.advance j) = some w' ∧ Matches name p' w' := by
  simp only [Process.step] at hstep
  split at hstep
  next sql txn c next he =>
    obtain ⟨handle, hpending, hagrees⟩ := h.pending (n := .emptied) hsound he
    simp only [Process.calls, he] at hfits
    obtain ⟨hanswer, hholds⟩ := Prog.run_simulated (disk_simulatesOn names name) hfits h.data
    change ((c.program txn).run (diskBackend names name).engine p.data).1 = _ at hanswer
    change Holds name ((c.program txn).run (diskBackend names name).engine p.data).2 _ at hholds
    have hworld : setting.step w (.advance j) = some { w with
        sys := (serve .emptied c (w.sys, handle)).2.1
        executions := Function.update w.executions j (some ⟨sql,
          (serve .emptied c (w.sys, handle)).2.2,
          next (serve .emptied c (w.sys, handle)).1⟩) } := by
      simp only [Setting.step, hpending, hnil]
    cases hstep
    refine ⟨_, hworld, ?_, h.started, ?_⟩
    · rw [← hagrees.store] at hholds
      exact hholds
    · intro i e hi
      change Function.update _ _ _ _ = _ at hi
      change ∃ handle, Function.update _ _ _ _ = _ ∧ _
      rw [Function.update_apply] at hi ⊢
      split_ifs at hi ⊢
      · cases hi
        rw [hanswer, ← hagrees.answer]
        exact ⟨_, rfl, hagrees.hand⟩
      · obtain ⟨handle', hother, hhand⟩ := h.running hi
        refine ⟨handle', hother, ?_⟩
        rcases serve_cases .emptied c w.sys handle with ⟨o, r, hserved⟩ | hsame
        · exact hhand.step hsound.sys hserved
        · rw [hsame]
          exact hhand
  · cases hstep

/-- The process dies inside a call, and another one opens the file. -/
theorem Matches.crash (h : Matches name p w) (hnil : setting.nil = .emptied)
    (hsound : Sound (fun _ => True) (fun _ _ => True) w) {j calls : Nat} {compact : Bool}
    (hfits : ∀ c ∈ p.calls (diskBackend names name) (.crash j calls compact), Fitting c)
    (hstep : p.step (diskBackend names name) setting.codec setting.walks (.crash j calls compact) =
      some p') : ∃ w', setting.step w (.crash j calls) = some w' ∧ Matches name p' w' := by
  cases he : p.running j with
  | none => simp only [Process.step, he, reduceCtorEq] at hstep
  | some e =>
    obtain ⟨sql, txn, rest⟩ := e
    cases rest with
    | done | fail => simp only [Process.step, he, reduceCtorEq] at hstep
    | call c next =>
      obtain ⟨handle, hpending, hagrees⟩ := h.pending (n := .emptied) hsound he
      obtain ⟨o, hop, hcrash⟩ := hagrees.crash calls
      simp only [Process.calls, he] at hfits
      have hholds := Prog.upTo_simulated (disk_simulatesOn names name) calls hfits h.data
      have hworld : setting.step w (.crash j calls) = some { w with
          sys := w.sys.crashed o ((c.program txn).upTo (orderedEngine .emptied) calls w.sys.store)
          executions := fun _ => none } := by
        simp only [Setting.step, hpending, hop, hnil, Option.bind_some, hcrash, Option.map_some]
      simp only [Process.step, he] at hstep
      cases hstep
      refine ⟨_, hworld, ?_, h.started, fun he => by cases he⟩
      change Holds name _ (Sys.crashed _ _ _).store
      rw [crashed_store]
      exact hholds.reopen names compact

/-- An event begins at most one transaction. -/
theorem world_begins_succ {e : Event} {w' : World} (h : setting.step w e = some w') :
    w'.sys.begins ≤ w.sys.begins + 1 := by
  rcases (world_effect h).sys_step with heq | ⟨st, r, -, hstep⟩
  · rw [heq]
    exact Nat.le_succ _
  · rw [step_begins hstep]
    split <;> omega

/-- One event of the process is at most one event of the sessions. -/
theorem Matches.event (h : Matches name p w) (hnil : setting.nil = .emptied)
    (hw : setting.Reaches w) (hb : w.sys.begins < 2 ^ 64 - 1) {e : ProcessEvent}
    (hfits : ∀ c ∈ p.calls (diskBackend names name) e, Fitting c)
    (hstep : p.step (diskBackend names name) setting.codec setting.walks e = some p') :
    ∃ w', setting.Reaches w' ∧ w'.sys.begins ≤ w.sys.begins + 1 ∧ Matches name p' w' := by
  have hsound := reaches_sound hw hb
  have hnext : ∀ {event w'}, setting.step w event = some w' → setting.Reaches w' := by
    intro event w' hevent
    have hrun : setting.run w [event] = some w' := by
      rw [Setting.run, hevent]
      rfl
    exact reaches_run hw hrun
  cases e with
  | start sql =>
    cases hstep
    have hevent : setting.step w (.start sql) = some (setting.start w sql) := rfl
    exact ⟨_, hnext hevent, Nat.le_succ _, h.start sql⟩
  | advance j =>
    obtain ⟨w', hevent, hmatch⟩ := h.advance hnil hsound hfits hstep
    exact ⟨w', hnext hevent, world_begins_succ hevent, hmatch⟩
  | crash j calls compact =>
    obtain ⟨w', hevent, hmatch⟩ := h.crash hnil hsound hfits hstep
    exact ⟨w', hnext hevent, world_begins_succ hevent, hmatch⟩
  | restart compact =>
    -- the sessions of the old process make no more calls
    cases hstep
    exact ⟨w, hw, Nat.le_succ _, h.data.reopen names compact, h.started, fun he => by cases he⟩

/-- The same of a whole run. -/
theorem Matches.run (h : Matches name p w) (hnil : setting.nil = .emptied)
    (hw : setting.Reaches w) {events : List ProcessEvent}
    (hb : w.sys.begins + events.length < 2 ^ 64 - 1)
    (hfits : ∀ c ∈ p.allCalls (diskBackend names name) setting.codec setting.walks
      events, Fitting c)
    (hrun : p.run (diskBackend names name) setting.codec setting.walks events = some p') :
    ∃ w', setting.Reaches w' ∧ Matches name p' w' := by
  induction events generalizing p w with
  | nil =>
    cases hrun
    exact ⟨w, hw, h⟩
  | cons e events ih =>
    obtain ⟨q, hq, hrest⟩ := Option.bind_eq_some_iff.mp hrun
    rw [Process.allCalls, hq] at hfits
    rw [List.length_cons] at hb
    obtain ⟨v, hv, hbegins, hmatch⟩ := h.event hnil hw (by omega)
      (fun c hc => hfits c (List.mem_append_left _ hc)) hq
    exact ih hmatch hv (by omega) (fun c hc => hfits c (List.mem_append_right _ hc)) hrest

def openedProcess (d : DiskEngine) (disk : Disk) : Process DiskWorld :=
  ⟨⟨disk, some d⟩, 0, fun _ => none⟩

/-- SQL over the file of a database is SQL over an ordered map. Whatever the
sessions of a process do at the same time, wherever it dies between two engine
calls, and however often another process opens the file again or compacts it:
some interleaving of the same statements over a map that never fails has given
every statement the same result, and left the contents of the file. -/
theorem sessions_on_disk {disk disk' : Disk} {d : DiskEngine} (hnil : setting.nil = .emptied)
    (hopen : (newDiskEngine name).run (fileSystem names) disk = (.ok d, disk'))
    (hnew : (disk.files.find? name).getD [] = []) {events : List ProcessEvent}
    (hb : events.length < 2 ^ 64 - 1)
    (hfits : ∀ c ∈ (openedProcess d disk').allCalls (diskBackend names name) setting.codec
      setting.walks events, Fitting c)
    (hrun : (openedProcess d disk').run
      (diskBackend names name) setting.codec setting.walks events =
      some p) :
    ∃ w, setting.Reaches w ∧ Holds name p.data w.sys.store ∧ ∀ j e, p.running j = some e →
      ∃ e', w.executions j = some e' ∧ e'.sql = e.sql ∧ e'.result = e.result := by
  obtain ⟨rs, hf, hholds⟩ := opened_holds hopen
  rw [encodeLog_eq_nil (hf.symm.trans hnew)] at hholds
  have hstart : Matches name (openedProcess d disk') .init := ⟨hholds, rfl, fun he => by cases he⟩
  obtain ⟨w, hw, hmatch⟩ := hstart.run hnil ⟨[], rfl⟩
    (by change 0 + _ < _; omega) hfits hrun
  refine ⟨w, hw, hmatch.data, fun j e he => ?_⟩
  obtain ⟨handle, hexecution, -⟩ := hmatch.running he
  exact ⟨_, hexecution, rfl, rfl⟩

/-- A database file with a table, opened again and compacted before the first
row; the process dies in the INSERT of the second one. -/
def diskEvents : List ProcessEvent :=
  .start (ascii "CREATE TABLE t (a INT PRIMARY KEY);") :: List.replicate 4 (.advance 0) ++
    .restart true :: .start (ascii "INSERT INTO t VALUES (1);") :: List.replicate 6 (.advance 1) ++
    .start (ascii "INSERT INTO t VALUES (2);") :: List.replicate 4 (.advance 2) ++
    .crash 2 2 false :: .start (ascii "SELECT * FROM t;") :: List.replicate 4 (.advance 3)

def diskSetting : Setting := ⟨.emptied, serialCodec, .same _⟩

theorem fitting_of_check {c : EngineCall} (h : (recordOf c).all (fun r =>
    decide (checkEntrySize r.key (r.value.getD []) r.value.isNone = .ok ())) =
    true) : Fitting c := by
  intro r hr
  rw [hr] at h
  exact (checkEntrySize_iff r).mp (of_decide_eq_true h)

theorem sessions_on_disk_select : ∃ p w e, (openedProcess ⟨.empty, ⟨[100]⟩, lockPath [100]⟩
      freshWorld.disk).run (diskBackend .longest [100]) serialCodec (.same _) diskEvents = some p ∧
    diskSetting.Reaches w ∧ Holds [100] p.data w.sys.store ∧ w.executions 3 = some e ∧
    e.result = some (.ok (.rows [ascii "a"] [[.integer (.wrap 1)]])) := by
  have hobserve : ((openedProcess ⟨.empty, ⟨[100]⟩, lockPath [100]⟩ freshWorld.disk).run
      (diskBackend .longest [100]) serialCodec (.same _) diskEvents).bind (fun p =>
        (p.running 3).map Running.result) =
      some (some (.ok (.rows [ascii "a"] [[.integer (.wrap 1)]]))) := by decide +kernel
  have hcalls : ((openedProcess ⟨.empty, ⟨[100]⟩, lockPath [100]⟩ freshWorld.disk).allCalls
      (diskBackend .longest [100]) serialCodec (.same _) diskEvents).all (fun c =>
        (recordOf c).all fun r =>
          decide (checkEntrySize r.key (r.value.getD []) r.value.isNone = .ok ())) = true := by
    decide +kernel
  obtain ⟨p, hrun, hp⟩ := Option.bind_eq_some_iff.mp hobserve
  obtain ⟨e, he, hresult⟩ := Option.map_eq_some_iff.mp hp
  obtain ⟨w, hw, hholds, hsame⟩ := sessions_on_disk
    (show diskSetting.nil = .emptied from rfl) fresh_open rfl
    (by decide) (fun c hc => fitting_of_check (List.all_eq_true.mp hcalls c hc)) hrun
  obtain ⟨e', he', -, hresult'⟩ := hsame 3 e he
  exact ⟨p, w, e', hrun, hw, hholds, he', hresult'.trans hresult⟩

end Processes
end SpaceDB.Proofs
