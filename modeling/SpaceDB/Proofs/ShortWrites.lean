import SpaceDB.Proofs.DiskRefinement
import SpaceDB.Proofs.FileFaults

namespace SpaceDB.Proofs
open Lib Storage

variable {names : TempNames} {disk : Disk} {name : Path} {content t : Bytes} {d : DiskEngine}
  {rs rs' : List Record} {r : Record} {plan : List (Option FileFault)}

/-- A log that continues another one continues it by whole records. -/
theorem encodeLog_continued (hfits : ∀ r ∈ rs, r.Fits) (hfits' : ∀ r ∈ rs', r.Fits)
    (h : encodeLog rs ++ t = encodeLog rs') :
    ∃ more, (∀ r ∈ more, Record.Fits r) ∧ t = encodeLog more := by
  induction rs generalizing rs' with
  | nil => exact ⟨rs', hfits', h⟩
  | cons r rs ih =>
    cases rs' with
    | nil => cases encodeLog_eq_nil (List.append_eq_nil_iff.mp h).1
    | cons r' rs' =>
      rw [encodeLog_cons, encodeLog_cons, List.append_assoc] at h
      obtain rfl := Record.bytes_inj (hfits r List.mem_cons_self) (hfits' r' List.mem_cons_self) h
      exact ih (fun r hr => hfits r (List.mem_cons_of_mem _ hr))
        (fun r hr => hfits' r (List.mem_cons_of_mem _ hr)) (List.append_cancel_left h)

/-- What is left of a record that is not complete is no log. -/
theorem torn_not_log (hr : r.Fits) (hfits : ∀ r ∈ rs, r.Fits) (ht : t <+: r.bytes.dropLast)
    (hne : t ≠ []) : t ≠ encodeLog rs := by
  rintro rfl
  cases rs with
  | nil => exact hne rfl
  | cons r' rs =>
    obtain ⟨rest, hrest⟩ := ht
    have hpos := r.size_pos
    have hbytes : r.bytes ≠ [] := by
      intro hnil
      rw [← Record.bytes_length, hnil] at hpos
      exact absurd hpos (lt_irrefl _)
    have hsplit := List.dropLast_append_getLast hbytes
    rw [← hrest, encodeLog_cons, List.append_assoc, List.append_assoc] at hsplit
    obtain rfl := Record.bytes_inj (hfits r' List.mem_cons_self) hr
      (hsplit.trans (List.append_nil _).symm)
    have hlen := congrArg List.length hrest
    simp only [encodeLog_cons, List.length_append, List.length_dropLast,
      Record.bytes_length] at hlen
    omega

instance (r : Record) : Decidable r.Fits := inferInstanceAs (Decidable (_ ∧ _))

/-- An append whose write fails after some bytes: the record fits, the seek
works, and the write that follows does not. -/
def tears (r : Record) : List (Option FileFault) → Bool
  | none :: some f :: _ => decide r.Fits && decide (0 < f.written)
  | _ => false

theorem tears_fits (h : tears r plan = true) : r.Fits := by
  unfold tears at h
  split at h
  · simp only [Bool.and_eq_true, decide_eq_true_eq] at h
    exact h.1
  · cases h

/-- The bytes that a failed append leaves in the log. -/
structure Remains (r : Record) (plan : List (Option FileFault)) (t : Bytes) : Prop where
  torn : tears r plan = true ↔ t ≠ []
  part : t <+: r.bytes.dropLast

theorem remains_nothing (h : tears r plan = false) : Remains r plan [] :=
  ⟨by simp [h], List.nil_prefix⟩

theorem remains_torn (f : FileFault) (rest : List (Option FileFault)) (hr : r.Fits) :
    Remains r (none :: some f :: rest) (r.bytes.dropLast.take f.written) := by
  refine ⟨?_, List.take_prefix _ _⟩
  have hlen : r.bytes.dropLast ≠ [] := by
    apply List.ne_nil_of_length_pos
    rw [List.length_dropLast, Record.bytes_length, Record.size, diskLogHeaderSize]
    omega
  simp only [tears, hr, decide_true, Bool.true_and, decide_eq_true_eq, ne_eq, List.take_eq_nil_iff,
    hlen, or_false]
  omega

/-- An append on a file system whose calls may fail: it succeeds, or it leaves
some of the bytes of the record. -/
theorem writeEntry_faulty (names : TempNames) (hf : disk.files.find? name = some content)
    (r : Record) (plan : List (Option FileFault)) :
    (r.Fits ∧ tears r plan = false ∧ ∃ plan',
      (DiskLog.writeEntry ⟨name⟩ r.key (r.value.getD []) r.value.isNone).run (faultyFiles names)
        ⟨disk, plan⟩ = (.ok ⟨content.length, r.size⟩,
          ⟨{ disk with files := disk.files.insert name (content ++ r.bytes) }, plan'⟩)) ∨
    ∃ e t plan', Remains r plan t ∧
      (DiskLog.writeEntry ⟨name⟩ r.key (r.value.getD []) r.value.isNone).run (faultyFiles names)
        ⟨disk, plan⟩ = (.error e,
          ⟨{ disk with files := disk.files.insert name (content ++ t) }, plan'⟩) := by
  have hsame : { disk with files := disk.files.insert name (content ++ []) } = disk := by
    rw [List.append_nil, insert_find? hf]
  cases hcheck : checkEntrySize r.key (r.value.getD []) r.value.isNone with
  | error e =>
    have htears : tears r plan = false := by
      by_contra htears
      have hr := tears_fits (Bool.not_eq_false _ ▸ htears)
      rw [(checkEntrySize_iff r).mpr hr] at hcheck
      cases hcheck
    refine .inr ⟨e, [], plan, remains_nothing htears, ?_⟩
    rw [writeEntry_oversized _ hcheck, hsame, Prog.run_fail]
  | ok u =>
    have hr := (checkEntrySize_iff r).mp hcheck
    have hstored : (if r.value.isNone = true then 0 else (r.value.getD []).length) =
        (r.value.getD []).length := by cases r.value <;> simp
    have hseek : fileSystem names (.seekEnd name) disk = (.ok content.length, disk) := by
      simp [fileSystem, hf]
    have hwrite : fileSystem names
        (.write name (entryBytes r.key (r.value.getD []) r.value.isNone)) disk =
        (.ok (), { disk with files := disk.files.insert name (content ++ r.bytes) }) := by
      simp [fileSystem, hf, Record.bytes]
    have hafter : ∀ f : FileFault,
        f.after (.write name (entryBytes r.key (r.value.getD []) r.value.isNone)) disk = { disk with
          files := disk.files.insert name (content ++ r.bytes.dropLast.take f.written) } := by
      intro f
      simp [FileFault.after, hf, Record.bytes]
    simp only [DiskLog.writeEntry, hcheck, hstored, Prog.ofExcept_ok, Prog.perform, Prog.bind_eq,
      Prog.bind_call, Prog.bind_done, Prog.run_call]
    -- the plan decides on the seek and on the write
    cases plan with
    | nil =>
      simp only [faultyFiles, hseek, hwrite, Prog.check_ok, Prog.bind_done, Prog.run_call]
      exact .inl ⟨hr, rfl, [], rfl⟩
    | cons seek plan =>
      cases seek with
      | some f =>
        refine .inr ⟨.wrap "storage: seeking to end of disk log: %w" [] f.error, [], plan,
          remains_nothing rfl, ?_⟩
        rw [hsame]
        rfl
      | none =>
        cases plan with
        | nil =>
          simp only [faultyFiles, hseek, hwrite, Prog.check_ok, Prog.bind_done, Prog.run_call]
          exact .inl ⟨hr, rfl, [], rfl⟩
        | cons write rest =>
          cases write with
          | none =>
            simp only [faultyFiles, hseek, hwrite, Prog.check_ok, Prog.bind_done, Prog.run_call]
            exact .inl ⟨hr, rfl, rest, rfl⟩
          | some f =>
            simp only [faultyFiles, hseek, hafter, Prog.check_ok, Prog.bind_done, Prog.run_call]
            exact .inr ⟨_, _, rest, remains_torn f rest hr, rfl⟩

/-- An append succeeds with its whole record, or fails with a part of it. -/
theorem appendAnswer_faulty (names : TempNames) (hlog : d.log = ⟨name⟩)
    (hf : disk.files.find? name = some content) (r : Record) (plan : List (Option FileFault)) :
    (r.Fits ∧ tears r plan = false ∧ ∃ plan',
      (appendAnswer d r).run (faultyFiles names) ⟨disk, plan⟩ =
        (.ok (.ok (), { d with keydir := indexRecord content.length d.keydir r }),
          ⟨{ disk with files := disk.files.insert name (content ++ r.bytes) }, plan'⟩)) ∨
    ∃ e t plan', Remains r plan t ∧
      (appendAnswer d r).run (faultyFiles names) ⟨disk, plan⟩ =
        (.ok (.error e, d),
          ⟨{ disk with files := disk.files.insert name (content ++ t) }, plan'⟩) := by
  rw [appendAnswer, Prog.bind_eq, Prog.run_bind, Prog.run_attempt, append_eq, Prog.run_bind,
    Prog.run_mapError, hlog]
  rcases writeEntry_faulty names hf r plan with ⟨hr, htears, plan', hrun⟩ | ⟨e, t, plan', ht, hrun⟩
  · rw [hrun]
    exact .inl ⟨hr, htears, plan', rfl⟩
  · rw [hrun]
    exact .inr ⟨_, t, plan', ht, rfl⟩

/-- A call in a run, with what the file system calls of an append meet. -/
structure LogStep where
  call : EngineCall
  plan : List (Option FileFault)

def LogStep.faults (st : LogStep) : List (Option FileFault) :=
  if (recordOf st.call).isSome then st.plan else []

def LogStep.tears (st : LogStep) : Bool := (recordOf st.call).any fun r => Proofs.tears r st.plan

structure LogRun where
  disk : Disk
  engine : DiskEngine
  map : Bytes → Slice

def failedWrite : (c : EngineCall) → EngineRet c → Bool
  | .set _ _, .error _ => true
  | .delete _, .error _ => true
  | _, _ => false

def mapAfter (c : EngineCall) (M : Bytes → Slice) : Bytes → Slice :=
  (recordOf c).elim M fun r => Function.update M r.key r.value

def LogRun.step (names : TempNames) (s : LogRun) (st : LogStep) : LogRun :=
  let r := (s.engine.perform st.call).run (faultyFiles names) ⟨s.disk, st.faults⟩
  ⟨r.2.disk, (value r.1).2,
    if failedWrite st.call (value r.1).1 then s.map else mapAfter st.call s.map⟩

def LogRun.run (names : TempNames) (s : LogRun) (steps : List LogStep) : LogRun :=
  steps.foldl (LogRun.step names) s

/-- What a step can do: whether it tears its record, and the state after it. -/
inductive StepEffect (name : Path) (content : Bytes) (s : LogRun) : Bool → LogRun → Prop
  | read : StepEffect name content s false s
  | appended (r : Record) (hr : r.Fits) : StepEffect name content s false
      ⟨{ s.disk with files := s.disk.files.insert name (content ++ r.bytes) },
        { s.engine with keydir := indexRecord content.length s.engine.keydir r },
        Function.update s.map r.key r.value⟩
  | failed (r : Record) (plan : List (Option FileFault)) (t : Bytes) (ht : Remains r plan t) :
      StepEffect name content s (tears r plan)
        ⟨{ s.disk with files := s.disk.files.insert name (content ++ t) }, s.engine, s.map⟩

/-- The running view: the index finds the values of the map, whatever else the
log holds. -/
structure Running (name : Path) (s : LogRun) (content : Bytes) (N : Store) : Prop where
  log : s.engine.log = ⟨name⟩
  file : s.disk.files.find? name = some content
  located : Located content s.engine.keydir N
  map : ∀ k, s.map k = (N.find? k).join

theorem failedWrite_read {c : EngineCall} (hc : recordOf c = none) (answer : EngineRet c) :
    failedWrite c answer = false := by
  cases c with
  | set key v => cases hc
  | delete key => cases hc
  | _ => rfl

/-- What a call can do to the log and the index. -/
theorem step_effect {s : LogRun} {N : Store} (names : TempNames) (h : Running name s content N)
    (st : LogStep) : StepEffect name content s st.tears (s.step names st) := by
  obtain ⟨c, plan⟩ := st
  have hread : recordOf c = none →
      StepEffect name content s (LogStep.tears ⟨c, plan⟩) (s.step names ⟨c, plan⟩) := by
    intro hc
    obtain ⟨plan', hrun⟩ := calm_run names (s.engine.perform c) s.disk
      (show Calm [] from fun f hf => absurd hf List.not_mem_nil)
    rw [perform_read names h.log h.file h.located hc] at hrun
    have hsame : s.step names ⟨c, plan⟩ = s := by
      simp only [LogRun.step, LogStep.faults, hc, Option.isSome_none, Bool.false_eq_true, if_false,
        hrun, value, failedWrite_read hc, mapAfter, Option.elim_none]
    rw [hsame, LogStep.tears, hc]
    exact .read
  cases c with
  | set key v =>
    rcases appendAnswer_faulty names h.log h.file ⟨key, some (v.getD [])⟩ plan with
      ⟨hr, htears, plan', hrun⟩ | ⟨e, t, plan', ht, hrun⟩
    all_goals
      rw [← perform_set] at hrun
      simp only [LogRun.step, LogStep.faults, LogStep.tears, recordOf, Option.isSome_some, if_true,
        hrun, value, failedWrite, mapAfter, Option.any_some]
    · rw [htears]
      exact .appended _ hr
    · exact .failed _ plan t ht
  | delete key =>
    rcases appendAnswer_faulty names h.log h.file ⟨key, none⟩ plan with
      ⟨hr, htears, plan', hrun⟩ | ⟨e, t, plan', ht, hrun⟩
    all_goals
      rw [← perform_delete] at hrun
      simp only [LogRun.step, LogStep.faults, LogStep.tears, recordOf, Option.isSome_some, if_true,
        hrun, value, failedWrite, mapAfter, Option.any_some]
    · rw [htears]
      exact .appended _ hr
    · exact .failed _ plan t ht
  | _ => exact hread rfl

theorem find?_applyRecord (N : Store) (r : Record) (k : Bytes) :
    ((applyRecord N r).find? k).join =
    Function.update (fun k => (N.find? k).join) r.key r.value k := by
  obtain ⟨key, value⟩ := r
  cases value with
  | none =>
    change ((N.erase key).find? k).join = _
    rw [OrderedMap.find?_erase, Function.update_apply]
    split <;> rfl
  | some v =>
    change ((N.insert key (some v)).find? k).join = _
    rw [OrderedMap.find?_insert, Function.update_apply]
    split <;> rfl

/-- Successes and failures alike keep the running view. -/
theorem Running.effect {s s' : LogRun} {N : Store} {torn : Bool} (h : Running name s content N)
    (heffect : StepEffect name content s torn s') : ∃ content' N', Running name s' content' N' := by
  cases heffect with
  | read => exact ⟨content, N, h⟩
  | appended r hr =>
    refine ⟨content ++ r.bytes, applyRecord N r, h.log, ?_, h.located.record hr, ?_⟩
    · exact (OrderedMap.find?_insert _ _ _ _).trans (if_pos rfl)
    · intro k
      rw [find?_applyRecord, ← funext h.map]
  | failed r plan t ht =>
    refine ⟨content ++ t, N, h.log, ?_, h.located.append t, h.map⟩
    exact (OrderedMap.find?_insert _ _ _ _).trans (if_pos rfl)

theorem Running.run {s : LogRun} {N : Store} (names : TempNames) (h : Running name s content N)
    (steps : List LogStep) : ∃ content' N', Running name (s.run names steps) content' N' := by
  induction steps generalizing s content N with
  | nil => exact ⟨content, N, h⟩
  | cons st steps ih =>
    obtain ⟨content', N', hnext⟩ := h.effect (step_effect names h st)
    exact ih hnext

/-- The replayed view: the log is one of whole records, and they make the map. -/
def Replayable (name : Path) (s : LogRun) : Prop :=
  ∃ N, Holds name ⟨s.disk, some s.engine⟩ N ∧ ∀ k, s.map k = (N.find? k).join

def Recovers (names : TempNames) (name : Path) (s : LogRun) : Prop :=
  ∃ d disk, (newDiskEngine name).run (fileSystem names) (released s.disk) = (.ok d, disk) ∧
    ∀ k, (d.get k).run (fileSystem names) disk = (.ok (s.map k), disk)

/-- A log of whole records can be opened again. -/
theorem Replayable.recovers {s : LogRun} (names : TempNames) (h : Replayable name s) :
    Recovers names name s := by
  obtain ⟨N, ⟨rs, hfits, hf, -, rfl⟩, hmap⟩ := h
  have hlog : ((released s.disk).files.find? name).getD [] = encodeLog rs := by
    simp only at hf
    simp [released, hf]
  obtain ⟨d, disk, hrun, hholds⟩ := newDiskEngine_holds names List.not_mem_nil hfits hlog
  refine ⟨d, disk, hrun, fun k => ?_⟩
  rw [hholds.get names k, hmap k]

theorem Replayable.running {s : LogRun} (h : Replayable name s) :
    ∃ rs, (∀ r ∈ rs, Record.Fits r) ∧ s.engine = ⟨logIndex rs, ⟨name⟩, lockPath name⟩ ∧
      Running name s (encodeLog rs) (contents rs) := by
  obtain ⟨N, ⟨rs, hfits, hf, hengine, rfl⟩, hmap⟩ := h
  have hengine' : s.engine = ⟨logIndex rs, ⟨name⟩, lockPath name⟩ := Option.some.inj hengine
  refine ⟨rs, hfits, hengine', ?_, hf, ?_, hmap⟩
  · rw [hengine']
  · rw [hengine']
    exact located_log hfits

/-- Bytes of a record that is not complete, at the end of the log. -/
theorem torn_not_recovered {s : LogRun} (hfits : ∀ r ∈ rs, r.Fits) (hr : r.Fits)
    (ht : t <+: r.bytes.dropLast) (hne : t ≠ [])
    (hf : s.disk.files.find? name = some (encodeLog rs ++ t)) : ¬ Recovers names name s := by
  rintro ⟨d, disk, hrun, -⟩
  obtain ⟨-, -, rs', hfits', hlog, -⟩ := newDiskEngine_ok hrun
  have heq : encodeLog rs ++ t = encodeLog rs' := by
    rw [← hlog, released, hf, Option.getD_some]
  obtain ⟨more, hmore, rfl⟩ := encodeLog_continued hfits hfits' heq
  exact torn_not_log hr hmore ht hne rfl

/-- After a log of whole records, one more step leaves such a log, or it has
torn its record and the bytes are in the way of the next opening. -/
theorem Replayable.step {s : LogRun} (names : TempNames) (h : Replayable name s) (st : LogStep) :
    (st.tears = false ∧ Replayable name (s.step names st)) ∨
      (st.tears = true ∧ ¬ Recovers names name (s.step names st)) := by
  obtain ⟨rs, hfits, hengine, hrunning⟩ := h.running
  have heffect := step_effect names hrunning st
  generalize s.step names st = s' at heffect ⊢
  generalize st.tears = torn at heffect ⊢
  cases heffect with
  | read => exact .inl ⟨rfl, h⟩
  | appended r hr =>
    refine .inl ⟨rfl, applyRecord (contents rs) r, ?_, ?_⟩
    · simp only [hengine]
      exact holds_append hfits hr
    · intro k
      rw [find?_applyRecord, ← funext hrunning.map]
  | failed r plan t ht =>
    cases htears : tears r plan with
    | false =>
      have hempty : t = [] := by
        by_contra hne
        rw [ht.torn.mpr hne] at htears
        cases htears
      rw [hempty, List.append_nil, insert_find? hrunning.file]
      exact .inl ⟨rfl, h⟩
    | true =>
      have hfind : (s.disk.files.insert name (encodeLog rs ++ t)).find? name =
          some (encodeLog rs ++ t) := (OrderedMap.find?_insert _ _ _ _).trans (if_pos rfl)
      exact .inr ⟨rfl, torn_not_recovered hfits (tears_fits htears) ht.part (ht.torn.mp htears)
        hfind⟩

/-- A run that tears no record. -/
theorem Replayable.run {s : LogRun} (names : TempNames) (h : Replayable name s)
    {steps : List LogStep} (hwhole : ∀ st ∈ steps, st.tears = false) :
    Replayable name (s.run names steps) := by
  induction steps generalizing s with
  | nil => exact h
  | cons st steps ih =>
    rcases h.step names st with ⟨-, hnext⟩ | ⟨htears, -⟩
    · exact ih hnext (fun st' hst' => hwhole st' (List.mem_cons_of_mem _ hst'))
    · rw [hwhole st List.mem_cons_self] at htears
      cases htears

/-- Whatever failed appends leave in the log, every Get of the running engine
returns the last value that was set. When no append is torn, the database can be
opened again with the same map; the first one that is makes that impossible. -/
theorem failed_append_recovers_iff {e : DiskEngine} {disk₀ disk₁ : Disk} {M : Bytes → Slice}
    (hopen : (newDiskEngine name).run (fileSystem names) disk₀ = (.ok e, disk₁))
    (hmap : ∀ k, (e.get k).run (fileSystem names) disk₁ = (.ok (M k), disk₁)) :
    (∀ steps k, let s := LogRun.run names ⟨disk₁, e, M⟩ steps
      (s.engine.get k).run (fileSystem names) s.disk = (.ok (s.map k), s.disk)) ∧
    ∀ steps : List LogStep, (∀ st ∈ steps, st.tears = false) →
      Recovers names name (LogRun.run names ⟨disk₁, e, M⟩ steps) ∧
      ∀ st : LogStep, Recovers names name (LogRun.run names ⟨disk₁, e, M⟩ (steps ++ [st])) ↔
        st.tears = false := by
  obtain ⟨rs, -, hholds⟩ := opened_holds hopen
  have hstart : Replayable name ⟨disk₁, e, M⟩ := by
    refine ⟨contents rs, hholds, fun k => ?_⟩
    simpa using (hmap k).symm.trans (hholds.get names k)
  constructor
  · intro steps k s
    obtain ⟨rs, -, -, hrunning⟩ := hstart.running
    obtain ⟨content, N, h⟩ := hrunning.run names steps
    rw [get_run names h.log h.file h.located k, h.map k]
  · intro steps hwhole
    have hreplay := hstart.run names hwhole
    refine ⟨hreplay.recovers names, fun st => ?_⟩
    rw [LogRun.run, List.foldl_append]
    rcases hreplay.step names st with ⟨hwhole', hnext⟩ | ⟨htears, hlost⟩
    · exact iff_of_true (hnext.recovers names) hwhole'
    · exact iff_of_false hlost (by simp [htears])

def freshRun : LogRun := ⟨freshWorld.disk, ⟨.empty, ⟨[100]⟩, lockPath [100]⟩, fun _ => none⟩

def setOne : LogStep := ⟨.set [1] (some [7]), []⟩

def setTorn : LogStep := ⟨.set [2] (some [8]), [none, some ⟨.new "no space left on device" [], 3⟩]⟩

theorem failed_append_recovers_iff_set :
    Recovers .longest [100] (freshRun.run .longest [setOne]) ∧
      ¬ Recovers .longest [100] (freshRun.run .longest [setOne, setTorn]) := by
  have hget : ∀ k, (DiskEngine.get ⟨.empty, ⟨[100]⟩, lockPath [100]⟩ k).run (fileSystem .longest)
      freshWorld.disk = (.ok none, freshWorld.disk) := fun k => rfl
  obtain ⟨hrecovers, hiff⟩ := (failed_append_recovers_iff fresh_open hget).2 [setOne]
    (fun st hst => by rw [List.mem_singleton.mp hst]; rfl)
  exact ⟨hrecovers, fun h => absurd ((hiff setTorn).mp h) (by decide +kernel)⟩

/-- The failed Set costs the whole database: the engine still finds the other
key, but the file cannot be opened any more. -/
theorem torn_append_blocks_opening :
    let s := freshRun.run .longest [setOne, setTorn]
    ((s.engine.get [1]).run (fileSystem .longest) s.disk).1 = .ok (some [7]) ∧
      ((newDiskEngine [100]).run (fileSystem .longest) (released s.disk)).1.toOption.isNone := by
  decide +kernel

end SpaceDB.Proofs
