import SpaceDB.Lib.Refinement
import SpaceDB.Proofs.Compaction

namespace SpaceDB.Proofs
open Lib Storage

variable {names : TempNames} {disk disk' : Disk} {name : Path} {content : Bytes} {d : DiskEngine}
  {M : Store} {rs : List Record} {r : Record} {w : DiskWorld}

def append (d : DiskEngine) (r : Record) : FileProg Error DiskEngine :=
  r.value.elim (d.delete r.key) (d.set r.key)

def appendError (r : Record) (e : Error) : Error :=
  .wrap (r.value.elim "storage: deleting key %q: %w" fun _ => "storage: setting key %q: %w")
    [.bytes r.key] e

theorem append_eq (d : DiskEngine) (r : Record) :
    append d r = ((d.log.writeEntry r.key (r.value.getD []) r.value.isNone).mapError
      (appendError r)).bind fun position => .done { d with
        keydir := r.value.elim (d.keydir.erase r.key) fun _ =>
          d.keydir.insert r.key position } := by
  obtain ⟨key, value⟩ := r
  cases value <;> rfl

theorem append_run (names : TempNames) (hlog : d.log = ⟨name⟩)
    (hf : disk.files.find? name = some content) (hr : r.Fits) :
    (append d r).run (fileSystem names) disk =
      (.ok { d with keydir := indexRecord content.length d.keydir r },
        { disk with files := disk.files.insert name (content ++ r.bytes) }) := by
  rw [append_eq, hlog, Prog.run_bind, Prog.run_mapError, writeEntry_run names hf hr]
  rfl

theorem append_oversized {e : Error} (d : DiskEngine)
    (hr : checkEntrySize r.key (r.value.getD []) r.value.isNone = .error e) :
    append d r = .fail (appendError r e) := by
  rw [append_eq, writeEntry_oversized _ hr]
  rfl

/-- The specification: an ordered map that refuses records beyond the limits. -/
def limitedEngine : Handler EngineCall EngineRet Store
  | .set key value, s =>
    match checkEntrySize key (value.getD []) false with
    | .ok () => orderedEngine .emptied (.set key value) s
    | .error e => (.error (.wrap "storage: setting key %q: %w" [.bytes key] e), s)
  | .delete key, s =>
    match checkEntrySize key [] true with
    | .ok () => orderedEngine .emptied (.delete key) s
    | .error e => (.error (.wrap "storage: deleting key %q: %w" [.bytes key] e), s)
  | c, s => orderedEngine .emptied c s

def limitedSession : Handler DiskOp DiskRet Store
  | .call c, s => limitedEngine c s
  | .reopen, s | .reopenCompact, s => (.ok (), s)

/-- The engine has the log of some records open and stands for their map. -/
def Holds (name : Path) (w : DiskWorld) (M : Store) : Prop :=
  ∃ rs, (∀ r ∈ rs, Record.Fits r) ∧ w.disk.files.find? name = some (encodeLog rs) ∧
    w.engine = some ⟨logIndex rs, ⟨name⟩, lockPath name⟩ ∧ M = contents rs

structure Logged (name : Path) (w : DiskWorld) (rs : List Record) : Prop where
  fits : ∀ r ∈ rs, Record.Fits r
  file : w.disk.files.find? name = some (encodeLog rs)
  engine : w.engine = some ⟨logIndex rs, ⟨name⟩, lockPath name⟩

theorem Logged.holds (h : Logged name w rs) : Holds name w (contents rs) :=
  ⟨rs, h.fits, h.file, h.engine, rfl⟩

def limitedAppend (r : Record) (M : Store) : Except Error Unit × Store :=
  match checkEntrySize r.key (r.value.getD []) r.value.isNone with
  | .ok () => (.ok (), applyRecord M r)
  | .error e => (.error (appendError r e), M)

theorem limited_set (key : Bytes) (value : Slice) (M : Store) :
    limitedEngine (.set key value) M = limitedAppend ⟨key, some (value.getD [])⟩ M := by
  cases hcheck : checkEntrySize key (value.getD []) false <;>
    simp [limitedEngine, limitedAppend, hcheck] <;> rfl

theorem limited_delete (key : Bytes) (M : Store) :
    limitedEngine (.delete key) M = limitedAppend ⟨key, none⟩ M := by
  cases hcheck : checkEntrySize key [] true <;>
    simp [limitedEngine, limitedAppend, hcheck] <;> rfl

def appendAnswer (d : DiskEngine) (r : Record) :
    FileProg Empty (Except Error Unit × DiskEngine) := do
  match ← (append d r).attempt with
  | .ok d => return (.ok (), d)
  | .error e => return (.error e, d)

theorem perform_set (d : DiskEngine) (key : Bytes) (value : Slice) :
    d.perform (.set key value) = appendAnswer d ⟨key, some (value.getD [])⟩ := rfl

theorem perform_delete (d : DiskEngine) (key : Bytes) :
    d.perform (.delete key) = appendAnswer d ⟨key, none⟩ := rfl

theorem logged_append (hfits : ∀ r ∈ rs, r.Fits) (hr : r.Fits) :
    Logged name ⟨{ disk with files := disk.files.insert name (encodeLog rs ++ r.bytes) },
      some ⟨indexRecord (encodeLog rs).length (logIndex rs) r, ⟨name⟩, lockPath name⟩⟩
      (rs ++ [r]) := by
  refine ⟨?_, ?_, ?_⟩
  · simp only [List.mem_append, List.mem_singleton]
    rintro r' (hr' | rfl)
    · exact hfits r' hr'
    · exact hr
  · rw [OrderedMap.find?_insert, if_pos rfl, encodeLog_append, encodeLog_singleton]
  · rw [logIndex_append]

theorem holds_append (hfits : ∀ r ∈ rs, r.Fits) (hr : r.Fits) :
    Holds name ⟨{ disk with files := disk.files.insert name (encodeLog rs ++ r.bytes) },
      some ⟨indexRecord (encodeLog rs).length (logIndex rs) r, ⟨name⟩, lockPath name⟩⟩
      (applyRecord (contents rs) r) := by
  rw [← contents_append]
  exact (logged_append hfits hr).holds

/-- Set and Delete do to the log what they do to the map. -/
theorem appendAnswer_run (names : TempNames) (hfits : ∀ r ∈ rs, r.Fits)
    (hf : disk.files.find? name = some (encodeLog rs)) (r : Record) :
    ∃ d disk' more,
      (appendAnswer ⟨logIndex rs, ⟨name⟩, lockPath name⟩ r).run (fileSystem names) disk =
        (.ok ((limitedAppend r (contents rs)).1, d), disk') ∧
      Logged name ⟨disk', some d⟩ (rs ++ more) ∧
      contents (rs ++ more) = (limitedAppend r (contents rs)).2 := by
  unfold appendAnswer limitedAppend
  cases hcheck : checkEntrySize r.key (r.value.getD []) r.value.isNone with
  | error e =>
    rw [append_oversized _ hcheck]
    refine ⟨_, _, [], rfl, ?_, ?_⟩
    · rw [List.append_nil]
      exact ⟨hfits, hf, rfl⟩
    · rw [List.append_nil]
  | ok u =>
    have hr := (checkEntrySize_iff r).mp hcheck
    rw [Prog.bind_eq, Prog.run_bind, Prog.run_attempt, append_run names rfl hf hr]
    exact ⟨_, _, [r], rfl, logged_append hfits hr, contents_append rs r⟩

def recordOf : EngineCall → Option Record
  | .set key value => some ⟨key, some (value.getD [])⟩
  | .delete key => some ⟨key, none⟩
  | .get _ | .scan _ _ | .scanReverse _ _ | .scanPrefix _ | .scanPrefixReverse _ => none

/-- All other calls read, and find in the log what the map says. -/
theorem perform_read (names : TempNames) (hlog : d.log = ⟨name⟩)
    (hf : disk.files.find? name = some content) (h : Located content d.keydir M) {c : EngineCall}
    (hc : recordOf c = none) : (d.perform c).run (fileSystem names) disk =
      (.ok ((orderedEngine .emptied c M).1, d), disk) := by
  cases c with
  | set key value => cases hc
  | delete key => cases hc
  | get key =>
    rw [DiskEngine.perform, Prog.bind_eq, Prog.run_bind, Prog.run_attempt, get_run names hlog hf h]
    rfl
  | _ =>
    rw [DiskEngine.perform, Prog.bind_eq, Prog.run_bind, scan_run names hlog hf h]
    rfl

theorem limited_read {c : EngineCall} (hc : recordOf c = none) (M : Store) :
    limitedEngine c M = ((orderedEngine .emptied c M).1, M) := by
  cases c with
  | set key value => cases hc
  | delete key => cases hc
  | _ => rfl

theorem diskEngine_eq {c : EngineCall} {answer : EngineRet c} {d' : DiskEngine}
    (hrun : (d.perform c).run (fileSystem names) disk = (.ok (answer, d'), disk')) :
    diskEngine names c ⟨disk, some d⟩ = (answer, ⟨disk', some d'⟩) := by
  simp only [diskEngine, hrun, value]

/-- Every call of an open engine is answered as the map answers it, and at most
appends to the log. -/
theorem diskEngine_step (names : TempNames) (h : Logged name w rs) (c : EngineCall) :
    ∃ more, Logged name (diskEngine names c w).2 (rs ++ more) ∧
      (diskEngine names c w).1 = (limitedEngine c (contents rs)).1 ∧
      contents (rs ++ more) = (limitedEngine c (contents rs)).2 := by
  obtain ⟨disk, engine⟩ := w
  obtain ⟨hfits, hf, hengine⟩ := h
  simp only at hf hengine
  subst hengine
  have hread : ∀ c, recordOf c = none → ∃ more,
      Logged name (diskEngine names c ⟨disk, some ⟨logIndex rs, ⟨name⟩, lockPath name⟩⟩).2
        (rs ++ more) ∧
      (diskEngine names c ⟨disk, some ⟨logIndex rs, ⟨name⟩, lockPath name⟩⟩).1 =
        (limitedEngine c (contents rs)).1 ∧
      contents (rs ++ more) = (limitedEngine c (contents rs)).2 := by
    intro c hc
    refine ⟨[], ?_⟩
    rw [List.append_nil, diskEngine_eq (perform_read names rfl hf (located_log hfits) hc),
      limited_read hc]
    exact ⟨⟨hfits, hf, rfl⟩, rfl, rfl⟩
  cases c with
  | set key value =>
    obtain ⟨d, disk', more, hrun, hlogged, hcontents⟩ :=
      appendAnswer_run names hfits hf ⟨key, some (value.getD [])⟩
    rw [← perform_set] at hrun
    rw [diskEngine_eq hrun, limited_set]
    exact ⟨more, hlogged, rfl, hcontents⟩
  | delete key =>
    obtain ⟨d, disk', more, hrun, hlogged, hcontents⟩ := appendAnswer_run names hfits hf ⟨key, none⟩
    rw [← perform_delete] at hrun
    rw [diskEngine_eq hrun, limited_delete]
    exact ⟨more, hlogged, rfl, hcontents⟩
  | _ => exact hread _ rfl

theorem diskEngine_simulates (names : TempNames) (name : Path) :
    Simulates (diskEngine names) limitedEngine (Holds name) := by
  rintro c w M ⟨rs, hfits, hf, hengine, rfl⟩
  obtain ⟨more, hlogged, hanswer, hcontents⟩ := diskEngine_step names ⟨hfits, hf, hengine⟩ c
  rw [← hcontents]
  exact ⟨hanswer, hlogged.holds⟩

/-- A process that has ended holds no lock. -/
def released (disk : Disk) : Disk := { disk with locked := [] }

def unlocked (name : Path) (disk : Disk) : Disk :=
  { disk with locked := disk.locked.filter (fun p => decide (p ≠ lockPath name)) }

theorem unlocked_free (name : Path) (disk : Disk) :
    lockPath name ∉ (unlocked name disk).locked := by
  simp [unlocked]

theorem reopenWith_eq (names : TempNames) (new : FileProg Error DiskEngine) (keydir : Keydir) :
    reopenWith names new ⟨disk, some ⟨keydir, ⟨name⟩, lockPath name⟩⟩ =
      ((new.run (fileSystem names) (unlocked name disk)).1.map (fun _ => ()),
        ⟨(new.run (fileSystem names) (unlocked name disk)).2,
          (new.run (fileSystem names) (unlocked name disk)).1.toOption⟩) := rfl

/-- An engine that is opened on the log of some records. -/
theorem newDiskEngine_holds (names : TempNames) (hlock : lockPath name ∉ disk.locked)
    (hfits : ∀ r ∈ rs, r.Fits) (hf : (disk.files.find? name).getD [] = encodeLog rs) :
    ∃ d disk', (newDiskEngine name).run (fileSystem names) disk = (.ok d, disk') ∧
      Holds name ⟨disk', some d⟩ (contents rs) :=
  ⟨_, _, newDiskEngine_run hlock hfits hf, rs, hfits,
    (openedDisk_find name disk).trans (by rw [hf]),
    rfl, rfl⟩

/-- Opened with compaction, the database has the same map. -/
theorem newDiskEngineCompact_holds (names : TempNames) (hlock : lockPath name ∉ disk.locked)
    (hfits : ∀ r ∈ rs, r.Fits) (hf : (disk.files.find? name).getD [] = encodeLog rs) :
    ∃ d disk', (newDiskEngineCompact name).run (fileSystem names) disk = (.ok d, disk') ∧
      Holds name ⟨disk', some d⟩ (contents rs) := by
  have hfind := openedDisk_find name disk
  rw [hf] at hfind
  have hloc := located_log hfits
  obtain ⟨disk', hcompact, hnew⟩ : ∃ disk',
      (DiskEngine.compact ⟨logIndex rs, ⟨name⟩, lockPath name⟩).run (fileSystem names)
        (openedDisk name disk) =
        (.ok ⟨logIndex (compacted (contents rs)), ⟨name⟩, lockPath name⟩, disk') ∧
      disk'.files.find? name = some (encodeLog (compacted (contents rs))) :=
    ⟨_, compact_run names rfl hfind hloc, installed_find_name (tempPath_apart _ _ _)⟩
  refine ⟨_, disk', ?_, compacted (contents rs), hloc.compacted_fits, hnew, rfl,
    hloc.contents_compacted.symm⟩
  rw [newDiskEngineCompact, Prog.bind_eq, Prog.run_bind_ok _ (newDiskEngine_run hlock hfits hf),
    Prog.bind_eq, Prog.run_bind, Prog.run_attempt, hcompact]
  rfl

/-- The disk engine answers as the map does, call by call. -/
theorem diskSession_simulates (names : TempNames) (name : Path) :
    Simulates (diskSession names name) limitedSession (Holds name) := by
  rintro (c | _ | _) w M h
  · exact diskEngine_simulates names name c w M h
  all_goals
    obtain ⟨rs, hfits, hf, hengine, rfl⟩ := h
    obtain ⟨disk, engine⟩ := w
    simp only at hf hengine
    subst hengine
    have hlog : ((unlocked name disk).files.find? name).getD [] = encodeLog rs := by
      simp [unlocked, hf]
  · obtain ⟨d, disk', hrun, hholds⟩ :=
      newDiskEngine_holds names (unlocked_free name disk) hfits hlog
    rw [diskSession, reopenWith_eq, hrun]
    exact ⟨rfl, hholds⟩
  · obtain ⟨d, disk', hrun, hholds⟩ :=
      newDiskEngineCompact_holds names (unlocked_free name disk) hfits hlog
    rw [diskSession, reopenWith_eq, hrun]
    exact ⟨rfl, hholds⟩

/-- The directory an engine was opened in holds a log of records. -/
theorem opened_holds (h : (newDiskEngine name).run (fileSystem names) disk = (.ok d, disk')) :
    ∃ rs, (disk.files.find? name).getD [] = encodeLog rs ∧
      Holds name ⟨disk', some d⟩ (contents rs) := by
  obtain ⟨-, rfl, rs, hfits, hf, rfl⟩ := newDiskEngine_ok h
  exact ⟨rs, hf, rs, hfits, (openedDisk_find name disk).trans (by rw [hf]), rfl, rfl⟩

theorem Holds.get (names : TempNames) (h : Holds name ⟨disk, some d⟩ M) (k : Bytes) :
    (d.get k).run (fileSystem names) disk = (.ok (M.find? k).join, disk) := by
  obtain ⟨rs, hfits, hf, hengine, rfl⟩ := h
  cases hengine
  exact get_run names rfl hf (located_log hfits) k

/-- No key has a nil value, so that nil always means an absent key. -/
theorem Holds.no_nil (h : Holds name w M) (key : Bytes) : M.find? key ≠ some none := by
  obtain ⟨rs, hfits, -, -, rfl⟩ := h
  intro hnil
  obtain ⟨v, -, hv, -⟩ := (located_log hfits).entry (OrderedMap.find?_eq_some.mp hnil)
  cases hv

/-- Whatever is called on an engine from its opening on, with any number of
reopenings and compactions in between, every answer is that of an ordered map. -/
theorem disk_refines_map
    (hopen : (newDiskEngine name).run (fileSystem names) disk = (.ok d, disk')) :
    ∃ M : Store, ((disk.files.find? name).getD [] = [] → M = .empty) ∧
      ∀ ops, answers (diskSession names name) ops ⟨disk', some d⟩ = answers limitedSession ops M ∧
        ∀ key, (Prog.replay limitedSession ops M).find? key ≠ some none := by
  obtain ⟨rs, hf, hholds⟩ := opened_holds hopen
  refine ⟨contents rs, ?_, ?_⟩
  · intro hempty
    rw [encodeLog_eq_nil (hf.symm.trans hempty)]
    rfl
  · intro ops
    have hsim := diskSession_simulates names name
    exact ⟨hsim.answers ops hholds, (hsim.replay ops hholds).no_nil⟩

def freshWorld : DiskWorld where
  disk := openedDisk [100] ⟨.empty, []⟩
  engine := some ⟨.empty, ⟨[100]⟩, lockPath [100]⟩

theorem fresh_open : (newDiskEngine [100]).run (fileSystem .longest) ⟨.empty, []⟩ =
    (.ok ⟨.empty, ⟨[100]⟩, lockPath [100]⟩, freshWorld.disk) := by
  have hnone : ∀ r ∈ ([] : List Record), r.Fits := by simp
  exact newDiskEngine_run (by simp) hnone rfl

theorem disk_refines_map_fresh :
    answers (diskSession .longest [100])
      [.call (.set [1] (some [7])), .reopenCompact, .call (.get [1]), .call (.get [2])] freshWorld =
      [⟨.call (.set [1] (some [7])), .ok ()⟩, ⟨.reopenCompact, .ok ()⟩,
        ⟨.call (.get [1]), .ok (some [7])⟩, ⟨.call (.get [2]), .ok none⟩] := by
  obtain ⟨M, hempty, hanswers⟩ := disk_refines_map fresh_open
  rw [hempty rfl] at hanswers
  exact (hanswers _).1

theorem limited_delete_long (key : Bytes) (hlong : 2 ^ 32 ≤ key.length) (M : Store) :
    ∃ e, (limitedEngine (.delete key) M).1 = .error e := by
  rw [limitedEngine]
  cases hcheck : checkEntrySize key [] true with
  | error e => exact ⟨_, rfl⟩
  | ok u =>
    have hfits := ((checkEntrySize_iff ⟨key, none⟩).mp hcheck).key_lt
    simp only at hfits
    omega

/-- The size limits hold for Delete as well, where a map has nothing to refuse. -/
theorem delete_of_long_key_fails :
    (diskEngine .longest (.delete (List.replicate (2 ^ 32) 0)) freshWorld).1 ≠
      (orderedEngine .emptied (.delete (List.replicate (2 ^ 32) 0)) .empty).1 := by
  obtain ⟨rs, -, hholds⟩ := opened_holds fresh_open
  obtain ⟨e, he⟩ := limited_delete_long (List.replicate (2 ^ 32) 0)
    (by rw [List.length_replicate]) (contents rs)
  rw [(diskEngine_simulates .longest [100] _ freshWorld _ hholds).1, he]
  rintro ⟨⟩

end SpaceDB.Proofs
