import SpaceDB.Proofs.DiskRefinement
import SpaceDB.Proofs.FileFaults

namespace SpaceDB.Proofs
open Lib Storage

variable {names : TempNames} {disk disk' : Disk} {name temp : Path} {content log : Bytes}
  {d : DiskEngine} {rs : List Record} {M : Bytes → Slice} {plan : List (Option FileFault)}

/-- To open the database fails, or it finds exactly the values of the map. -/
def OpensAs (names : TempNames) (name : Path) (disk : Disk) (M : Bytes → Slice) : Prop :=
  ∀ d disk', (newDiskEngine name).run (fileSystem names) disk = (.ok d, disk') →
    ∀ k, (d.get k).run (fileSystem names) disk' = (.ok (M k), disk')

/-- What stands under the name decides which map is found. -/
theorem opensAs_iff (hlock : lockPath name ∉ disk.locked) (hfits : ∀ r ∈ rs, r.Fits)
    (hf : (disk.files.find? name).getD [] = encodeLog rs) :
    OpensAs names name disk M ↔ ∀ k, M k = ((contents rs).find? k).join := by
  obtain ⟨d, disk', hrun, hholds⟩ := newDiskEngine_holds names hlock hfits hf
  constructor
  · intro h k
    have hget := (h d disk' hrun k).symm.trans (hholds.get names k)
    simpa using hget
  · intro h d₁ disk₁ hrun₁ k
    cases hrun.symm.trans hrun₁
    rw [hholds.get names k, h k]

def Faulted (c : FileCall) (r : FileRet c) : Prop := ∃ f : FileFault, r = f.answer c

section Rewrite
variable {log : DiskLog}

theorem readEntry_guarded (offset : Nat) :
    (log.readEntry offset).Guarded (Harmless name) Faulted := by
  refine ⟨trivial, ?_, fun r => (Prog.guarded_check _ r).bind fun header => ⟨trivial, ?_, fun r =>
    (Prog.guarded_check _ r).bind fun key => trivial⟩⟩
  all_goals
    rintro _ ⟨f, rfl⟩
    exact ⟨_, rfl⟩

theorem readLogValue_guarded (position : LogPosition) :
    (log.readLogValue position).Guarded (Harmless name) Faulted := by
  refine (readEntry_guarded position.entryOffset).bind ?_
  rintro ⟨key, valueSize⟩
  dsimp only
  split_ifs
  · trivial
  · trivial
  · refine ⟨trivial, ?_, fun r => Prog.guarded_check _ r⟩
    rintro _ ⟨f, rfl⟩
    exact ⟨_, rfl⟩

theorem writeEntry_guarded (hne : log.file ≠ name) (key value : Bytes) (deleted : Bool) :
    (log.writeEntry key value deleted).Guarded (Harmless name) Faulted := by
  refine (Prog.guarded_ofExcept _).bind fun _ => ⟨trivial, ?_, fun r =>
    (Prog.guarded_check _ r).bind fun offset => ⟨hne, ?_, fun r =>
      (Prog.guarded_check _ r).bind fun _ => trivial⟩⟩
  all_goals
    rintro _ ⟨f, rfl⟩
    exact ⟨_, rfl⟩

theorem rewriteLoop_guarded (hne : temp ≠ name) (items : List (Bytes × LogPosition))
    (keydir : Keydir) :
    (rewriteLoop log ⟨temp⟩ items keydir).Guarded (Harmless name) Faulted := by
  induction items generalizing keydir with
  | nil => trivial
  | cons item items ih =>
    exact (readLogValue_guarded item.2).mapError.bind fun value =>
      (writeEntry_guarded hne item.1 value false).mapError.bind fun position => ih _

/-- Until the new log is complete, nothing touches the original. -/
theorem rewrite_guarded (hne : temp ≠ name) (d : DiskEngine) :
    (d.rewrite temp).Guarded (Harmless name) Faulted := by
  refine (rewriteLoop_guarded hne d.keydir.entries .empty).mapError.bind fun keydir =>
    ⟨trivial, ?_, fun r => (Prog.guarded_check _ r).bind fun _ => ⟨trivial, ?_, fun r =>
      (Prog.guarded_check _ r).bind fun _ => ⟨trivial, ?_, fun r =>
        (Prog.guarded_check _ r).bind fun _ => trivial⟩⟩⟩
  all_goals
    rintro _ ⟨f, rfl⟩
    exact ⟨_, rfl⟩

end Rewrite

section Install
variable {keydir : Keydir} {ε : Type}

/-- The backup takes its old place again, whatever stands there. -/
theorem restoreOriginal_run (names : TempNames) (hne : Apart name temp) (hlog : d.log = ⟨name⟩)
    (hb : disk.files.find? (backupPath temp) = some content) :
    ∃ x disk', (d.restoreOriginal temp : FileProg ε _).run (fileSystem names) disk =
        (.ok x, disk') ∧
      disk'.files.find? name = some content := by
  have hb' : (fileSystem names (.remove name) disk).2.files.find?
      (backupPath temp) = some content :=
    harmless_keeps (.remove name) disk hne.backup_ne.symm hb
  have hrename := run_rename names name hb'
  generalize hnext : Disk.mk _ _ = next at hrename
  have hfind : next.files.find? name = some content := by
    rw [← hnext, OrderedMap.find?_insert, if_pos rfl]
  obtain ⟨keydir, log, lock⟩ := d
  subst hlog
  refine ⟨(⟨keydir, ⟨name⟩, lock⟩, (errorOf (fileSystem names (.remove name) disk).1).filter
    (fun e => decide (e ≠ notExist))), next, ?_, hfind⟩
  simp only [DiskEngine.restoreOriginal, newDisLog, Prog.attempt, Prog.perform, Prog.bind_eq,
    Prog.bind_call, Prog.bind_done, Prog.run_call, hrename, run_openFile names hfind, Prog.check_ok,
    Prog.pure_eq, Prog.run_done]

def EitherLog (name : Path) (content log : Bytes) (disk : Disk) : Prop :=
  disk.files.find? name = some content ∨ disk.files.find? name = some log

theorem EitherLog.call {s : FaultyDisk} (h : EitherLog name content log s.disk) (names : TempNames)
    (c : FileCall) (hc : Harmless name c) :
    EitherLog name content log (faultyFiles names c s).2.disk :=
  h.imp (harmless_keeps_faulty names c s hc) (harmless_keeps_faulty names c s hc)

/-- The original is back in its place, though an error is returned. -/
theorem restoreOriginal_fails {α : Type} (names : TempNames) (hne : Apart name temp)
    (hlog : d.log = ⟨name⟩) (hb : disk.files.find? (backupPath temp) = some content)
    (e : DiskEngine × Option Error → ε) (hplan : Calm plan) :
    (((d.restoreOriginal temp).bind fun x => (.fail (e x) : FileProg ε α)).run (faultyFiles names)
      ⟨disk, plan⟩).2.disk.files.find? name = some content := by
  obtain ⟨x, disk', hrun, hfind⟩ := restoreOriginal_run (ε := ε) names hne hlog hb
  rw [calm_disk names _ _ hplan, Prog.run_bind_ok _ hrun]
  exact hfind

/-- With at most one fault the name ends up with the old log or with the new one. -/
theorem install_faulty (names : TempNames) (hne : Apart name temp) (hlog : d.log = ⟨name⟩)
    (hf : disk.files.find? name = some content) (ht : disk.files.find? temp = some log)
    (hplan : Single plan) : EitherLog name content log
      ((d.install temp keydir).run (faultyFiles names) ⟨disk, plan⟩).2.disk := by
  obtain ⟨keydir₀, log₀, lock⟩ := d
  subst hlog
  simp only [DiskEngine.install, newDisLog, Prog.attempt, Prog.perform, Prog.bind_eq,
    Prog.bind_call, Prog.bind_done, Prog.run_call]
  rcases single_call names (.rename name (backupPath temp)) disk hplan with
    ⟨plan₁, hplan₁, haway⟩ | ⟨f, plan₁, hplan₁, haway⟩
  · rw [haway, run_moveAway names temp hf]
    simp only [Prog.run_call]
    rcases single_call names (.rename temp name) (movedAway disk name temp content) hplan₁ with
      ⟨plan₂, hplan₂, hin⟩ | ⟨f, plan₂, hplan₂, hin⟩
    · rw [hin, run_moveIn names hne ht]
      simp only [Prog.run_call]
      rcases single_call names (.openFile name) (movedIn disk name temp content log) hplan₂ with
        ⟨plan₃, hplan₃, hopen⟩ | ⟨f, plan₃, hplan₃, hopen⟩
      · -- only the removal of the backup is left, which does not touch the new log
        rw [hopen, run_openNew]
        simp only [Prog.check_ok, Prog.bind_done, Prog.pure_eq, Prog.attempt, Prog.run_call]
        have hkeep := harmless_keeps_faulty names (.remove (backupPath temp))
          ⟨movedIn disk name temp content log, plan₃⟩ hne.backup_ne movedIn_find_name
        rcases hremove : faultyFiles names (.remove (backupPath temp))
          ⟨movedIn disk name temp content log, plan₃⟩ with ⟨_ | _, s⟩
        all_goals
          rw [hremove] at hkeep
          exact .inr hkeep
      · rw [hopen]
        exact .inl (restoreOriginal_fails names hne rfl (movedIn_find_backup hne) _ hplan₃)
    · rw [hin]
      exact .inl (restoreOriginal_fails names hne rfl (movedAway_find_backup) _ hplan₂)
  · -- the original has not moved, and is opened again
    rw [haway]
    simp only [FileFault.answer, FileFault.after, Prog.run_call]
    have hkeep := harmless_keeps_faulty names (.openFile name) ⟨disk, plan₁⟩ trivial hf
    rcases hopen : faultyFiles names (.openFile name) ⟨disk, plan₁⟩ with ⟨_ | _, s⟩
    all_goals
      rw [hopen] at hkeep
      exact .inl hkeep

end Install

/-- What a list of calls leaves: the name has one of the two logs, or the last
call has moved the original away and nothing is there. -/
def Survives (name : Path) (content log : Bytes) (cs : List FileCall) (disk : Disk) : Prop :=
  (EitherLog name content log disk ∧ ∀ target, cs.getLast? ≠ some (.rename name target)) ∨
    (disk.files.find? name = none ∧ ∃ target, cs.getLast? = some (.rename name target))

theorem last_ne_rename {cs : List FileCall} (h : ∀ c ∈ cs, Harmless name c) (target : Path) :
    cs.getLast? ≠ some (.rename name target) := fun hlast =>
  (h _ (List.mem_of_getLast? hlast)).1 rfl

/-- Calls that do not touch the original, the two renames, and calls that do not
touch the new log, cut off anywhere. -/
theorem survives_take {pre post : List FileCall} {calls : Nat} (hne : Apart name temp)
    (hf : disk.files.find? name = some content) (hf' : disk'.files.find? name = some content)
    (ht : disk'.files.find? temp = some log) (hpre : ∀ c ∈ pre, Harmless name c)
    (hreplay : Prog.replay (fileSystem names) pre disk = disk')
    (hpost : ∀ c ∈ post, Harmless name c) :
    let cs := (pre ++ .rename name (backupPath temp) :: .rename temp name :: post).take calls
    Survives name content log cs (Prog.replay (fileSystem names) cs disk) := by
  have hkeep : ∀ {cs : List FileCall} {disk : Disk} {content : Bytes}, (∀ c ∈ cs, Harmless name c) →
      disk.files.find? name = some content →
      (Prog.replay (fileSystem names) cs disk).files.find? name = some content := by
    intro cs disk content hcs hf
    exact Prog.replay_keeps (Q := fun disk : Disk => disk.files.find? name = some content)
      (fileSystem names) (fun c disk hc hd => harmless_keeps c disk hc hd) hcs hf
  intro cs
  rcases Nat.lt_or_ge pre.length calls with hlt | hle
  · obtain ⟨n, rfl⟩ : ∃ n, calls = pre.length + (n + 1) := ⟨calls - pre.length - 1, by omega⟩
    have hcs : cs = pre ++ .rename name (backupPath temp) ::
        (FileCall.rename temp name :: post).take n := by
      simp only [cs, List.take_length_add_append, List.take_succ_cons]
    rw [hcs, Prog.replay_append, hreplay, Prog.replay_cons, run_moveAway names temp hf']
    cases n with
    | zero => exact .inr ⟨movedAway_find_name hne, backupPath temp, by simp⟩
    | succ n =>
      have htake : ∀ c ∈ post.take n, Harmless name c :=
        fun c hc => hpost c (List.mem_of_mem_take hc)
      rw [List.take_succ_cons, Prog.replay_cons, run_moveIn names hne ht]
      refine .inl ⟨.inr (hkeep htake movedIn_find_name), ?_⟩
      intro target
      rw [List.getLast?_append_of_ne_nil _ (by simp), List.getLast?_cons_cons]
      cases hrest : post.take n with
      | nil => simpa using fun heq => absurd heq hne.temp_ne
      | cons c rest =>
        rw [List.getLast?_cons_cons, ← hrest]
        exact last_ne_rename htake target
  · have hcs : cs = pre.take calls := List.take_append_of_le_length hle
    have htake : ∀ c ∈ pre.take calls, Harmless name c :=
      fun c hc => hpre c (List.mem_of_mem_take hc)
    rw [hcs]
    exact .inl ⟨.inl (hkeep htake hf), last_ne_rename htake⟩

section Compact
variable {N : Store} (names : TempNames) (hlog : d.log = ⟨name⟩)
  (hf : disk.files.find? name = some content) (h : Located content d.keydir N)
include hlog hf h

/-- One fault somewhere in the compaction leaves the old log or the new one. -/
theorem compactInto_faulty (hplan : Single plan) :
    EitherLog name content (encodeLog (compacted N))
      ((d.compactInto (tempPath names name disk)).run (faultyFiles names)
        ⟨withTemp names name disk [], plan⟩).2.disk := by
  have hne := tempPath_apart names name disk
  have hguard := rewrite_guarded hne.temp_ne d
  rw [DiskEngine.compactInto, Prog.bind_eq, Prog.run_bind]
  rcases hrun : (d.rewrite (tempPath names name disk)).run (faultyFiles names)
    ⟨withTemp names name disk [], plan⟩ with ⟨e | keydir, s⟩
  · -- the new log is given up, and the original is as it was
    have hkeep : (Prod.snd ((d.rewrite (tempPath names name disk)).run (faultyFiles names)
        ⟨withTemp names name disk [], plan⟩)).disk.files.find? name = some content :=
      hguard.run (Q := fun s => s.disk.files.find? name = some content) (faultyFiles names)
        (fun c s hc hs => harmless_keeps_faulty names c s hc hs)
        ((withTemp_find_name names name disk []).trans hf)
    rw [hrun] at hkeep
    exact .inl hkeep
  · obtain ⟨hok, hplan'⟩ := guarded_ok hplan hguard hrun
    rw [rewrite_withTemp names hlog hf h] at hok
    obtain ⟨s, plan'⟩ := s
    cases hok
    exact install_faulty names hne hlog ((withTemp_find_name names name disk _).trans hf)
      (withTemp_find_temp names name disk _) hplan'

/-- The same of the whole of `compact`, with the temporary file it creates. -/
theorem compact_faulty (hplan : Single plan) :
    EitherLog name content (encodeLog (compacted N))
      (d.compact.run (faultyFiles names) ⟨disk, plan⟩).2.disk := by
  have hinto : ∀ plan, Single plan → _ := fun _ => compactInto_faulty names hlog hf h
  obtain ⟨keydir, log, lock⟩ := d
  subst hlog
  simp only [DiskEngine.compact, Prog.perform, Prog.bind_eq, Prog.bind_call, Prog.bind_done,
    Prog.run_call]
  rcases single_call names (.createTemp (compactStart name)) disk hplan with
    ⟨plan₁, hplan₁, hcreate⟩ | ⟨f, plan₁, hplan₁, hcreate⟩
  · rw [hcreate, run_createTemp]
    simp only [Prog.check_ok, Prog.bind_done, Prog.run_bind, Prog.run_attempt, Prog.run_call,
      Prog.run_ofExcept]
    -- the deferred calls only touch the temporary file
    exact ((hinto plan₁ hplan₁).call names (.close _) trivial).call names (.remove _)
      (tempPath_apart names name disk).temp_ne
  · rw [hcreate]
    exact .inl hf

/-- The process dies between two calls. Either the name has one of the two logs,
or the last call has moved the original away and nothing is there. -/
theorem compact_killed (calls : Nat) : Survives name content (encodeLog (compacted N))
    ((d.compact.trace (fileSystem names) disk).take calls)
    (d.compact.upTo (fileSystem names) calls disk) := by
  have hne := tempPath_apart names name disk
  rw [Prog.upTo_state, compact_trace names hlog hf h, List.append_assoc]
  refine survives_take hne hf (withTemp_find_name names name disk _ |>.trans hf)
    (withTemp_find_temp names name disk _) ?_ ?_ ?_
  · intro c hc
    rcases List.mem_cons.mp hc with rfl | hc
    · exact start_ne name
    · exact (rewrite_guarded hne.temp_ne d).trace (fileSystem names) _ c hc
  · rw [Prog.replay_cons, run_createTemp, ← Prog.run_state, rewrite_withTemp names hlog hf h]
  · simp [Harmless, hne.backup_ne, hne.temp_ne]

end Compact

/-- Both logs stand for the same map. -/
theorem opensAs_eitherLog (hfits : ∀ r ∈ rs, r.Fits)
    (hM : ∀ k, M k = ((contents rs).find? k).join)
    (h : EitherLog name (encodeLog rs) (encodeLog (compacted (contents rs))) disk) :
    OpensAs names name (released disk) M := by
  have hloc := located_log hfits
  have hfree : lockPath name ∉ (released disk).locked := List.not_mem_nil
  rcases h with hf | hf
  · exact (opensAs_iff hfree hfits (by simp [released, hf])).mpr hM
  · refine (opensAs_iff hfree hloc.compacted_fits (by simp [released, hf])).mpr ?_
    rwa [hloc.contents_compacted]

/-- A file that is missing is created, and the database is empty. -/
theorem opensAs_missing (hf : disk.files.find? name = none) :
    OpensAs names name (released disk) M ↔ ∀ k, M k = none := by
  have hnone : ∀ r ∈ ([] : List Record), r.Fits := by simp
  have hfree : lockPath name ∉ (released disk).locked := List.not_mem_nil
  rw [opensAs_iff hfree hnone (by simp [released, hf, encodeLog])]
  rfl

/-- A compaction that dies loses the map exactly when it has just moved a log
that is not empty out of its place; one that meets a single error never does. -/
theorem compaction_keeps_map_iff {e : DiskEngine} {disk₀ disk₁ : Disk} {ops : List DiskOp}
    (hopen : (newDiskEngine name).run (fileSystem names) disk₀ = (.ok e, disk₁))
    (hops : Prog.replay (diskSession names name) ops ⟨disk₁, some e⟩ = ⟨disk, some d⟩)
    (hmap : ∀ k, (d.get k).run (fileSystem names) disk = (.ok (M k), disk)) :
    (∀ calls, OpensAs names name (released (d.compact.upTo (fileSystem names) calls disk)) M ↔
      (∀ k, M k = none) ∨ ∀ target,
        ((d.compact.trace (fileSystem names) disk).take calls).getLast? ≠
          some (.rename name target)) ∧
    ∀ plan, Single plan →
      OpensAs names name (released (d.compact.run (faultyFiles names) ⟨disk, plan⟩).2.disk) M := by
  obtain ⟨rs₀, -, hholds₀⟩ := opened_holds hopen
  have hholds := (diskSession_simulates names name).replay ops hholds₀
  rw [hops] at hholds
  have hM : ∀ k, M k = ((Prog.replay limitedSession ops (contents rs₀)).find? k).join := by
    intro k
    simpa using (hmap k).symm.trans (hholds.get names k)
  obtain ⟨rs, hfits, hf, hengine, heq⟩ := hholds
  cases hengine
  rw [heq] at hM
  have hloc := located_log hfits
  constructor
  · intro calls
    rcases compact_killed (d := ⟨logIndex rs, ⟨name⟩, lockPath name⟩) names rfl hf hloc calls with
      ⟨hlog, hlast⟩ | ⟨hnone, target, hlast⟩
    · exact iff_of_true (opensAs_eitherLog hfits hM hlog) (.inr hlast)
    · rw [opensAs_missing hnone]
      constructor
      · exact .inl
      · rintro (hempty | hne)
        · exact hempty
        · exact absurd hlast (hne target)
  · intro plan hplan
    exact opensAs_eitherLog hfits hM (compact_faulty names rfl hf hloc hplan)

def oneKeyWorld : DiskWorld :=
  Prog.replay (diskSession .longest [100]) [.call (.set [1] (some [7]))] freshWorld

theorem oneKey_holds : Holds [100] oneKeyWorld (OrderedMap.empty.insert [1] (some [7])) := by
  have hfresh : Holds [100] freshWorld .empty := ⟨[], by simp, rfl, rfl, rfl⟩
  exact (diskSession_simulates .longest [100]).replay [.call (.set [1] (some [7]))] hfresh

theorem compaction_keeps_map_iff_oneKey :
    ∃ d, oneKeyWorld.engine = some d ∧
      (∀ k, (d.get k).run (fileSystem .longest) oneKeyWorld.disk =
        (.ok (if k = [1] then some [7] else none), oneKeyWorld.disk)) ∧
      ∀ calls, OpensAs .longest [100]
          (released (d.compact.upTo (fileSystem .longest) calls oneKeyWorld.disk))
          (fun k => if k = [1] then some [7] else none) ↔
        ∀ target, ((d.compact.trace (fileSystem .longest) oneKeyWorld.disk).take calls).getLast? ≠
          some (.rename [100] target) := by
  obtain ⟨rs, -, -, hengine, -⟩ := oneKey_holds
  have hworld : oneKeyWorld = ⟨oneKeyWorld.disk, some ⟨logIndex rs, ⟨[100]⟩, lockPath [100]⟩⟩ := by
    rw [← hengine]
  have hholds := oneKey_holds
  rw [hworld] at hholds
  have hget : ∀ k, (DiskEngine.get ⟨logIndex rs, ⟨[100]⟩, lockPath [100]⟩ k).run
      (fileSystem .longest) oneKeyWorld.disk =
        (.ok (if k = [1] then some [7] else none), oneKeyWorld.disk) := by
    intro k
    rw [hholds.get .longest k, OrderedMap.find?_insert]
    by_cases hk : k = [1] <;> simp [hk]
  refine ⟨_, hengine, hget, fun calls => ?_⟩
  rw [(compaction_keeps_map_iff fresh_open hworld hget).1 calls]
  refine or_iff_right ?_
  intro hnone
  simpa using hnone [1]

/-- What Get([1]) answers once the process has died inside the compaction and
the database has been opened again; none when that fails. -/
def getAfterCrash (calls : Nat) : Option (Except Error Slice) :=
  oneKeyWorld.engine.bind fun d =>
    let r := (newDiskEngine [100]).run (fileSystem .longest)
      (released (d.compact.upTo (fileSystem .longest) calls oneKeyWorld.disk))
    r.1.toOption.map fun e => ((e.get [1]).run (fileSystem .longest) r.2).1

/-- Nine calls of the compaction lose nothing. The tenth moves the log away, and
the database that is opened then is empty. -/
theorem compaction_crash_opens_empty :
    getAfterCrash 9 = some (.ok (some [7])) ∧ getAfterCrash 10 = some (.ok none) := by
  decide +kernel

end SpaceDB.Proofs
