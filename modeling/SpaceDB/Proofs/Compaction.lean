import SpaceDB.Proofs.DiskReplay
import SpaceDB.Storage.Compact

namespace SpaceDB.Proofs
open Lib Storage

variable {names : TempNames} {disk disk' : Disk} {name temp : Path} {content : Bytes}
  {d : DiskEngine} {M : Store} {rs : List Record}

def liveRecord (e : Bytes × Slice) : Record := ⟨e.1, some (e.2.getD [])⟩

def compacted (M : Store) : List Record := M.entries.map liveRecord

/-- Every entry of the map stands in the log somewhere. -/
theorem Located.entry {keydir : Keydir} {e : Bytes × Slice} (h : Located content keydir M)
    (he : e ∈ M.entries) : ∃ v position, e.2 = some v ∧ HoldsAt content position e.1 v := by
  have hfind := OrderedMap.find?_eq_some.mpr he
  cases hk : keydir.find? e.1 with
  | none =>
    rw [h.missing hk] at hfind
    cases hfind
  | some position =>
    obtain ⟨slot, hslot, v, rfl, hat⟩ := h.found hk
    rw [hfind] at hslot
    exact ⟨v, position, Option.some.inj hslot, hat⟩

theorem Located.compacted_fits {keydir : Keydir} (h : Located content keydir M) :
    ∀ r ∈ compacted M, r.Fits := by
  intro r hr
  obtain ⟨e, he, rfl⟩ := List.mem_map.mp hr
  obtain ⟨v, position, hv, hat⟩ := h.entry he
  rw [liveRecord, hv]
  exact hat.fits

/-- The records of distinct keys, replayed over a map. -/
theorem find?_foldl_live {es : List (Bytes × Slice)} (hs : es.Pairwise (fun a b => a.1 < b.1))
    (N : Store) (k : Bytes) : ((es.map liveRecord).foldl applyRecord N).find? k =
      ((OrderedMap.mk es hs).find? k).elim (N.find? k) (fun v => some (some (v.getD []))) := by
  induction es generalizing N with
  | nil => rfl
  | cons e es ih =>
    obtain ⟨hlt, hrest⟩ := List.pairwise_cons.mp hs
    have happly : applyRecord N (liveRecord e) = N.insert e.1 (some (e.2.getD [])) := rfl
    rw [List.map_cons, List.foldl_cons, ih hrest, happly, OrderedMap.find?_insert,
      OrderedMap.find?_cons]
    by_cases hk : k = e.1
    · have hnone : (OrderedMap.mk es hrest).find? k = none := by
        rw [OrderedMap.find?_eq_none]
        intro e' he'
        exact hk ▸ ne_of_gt (hlt e' he')
      rw [if_pos hk, if_pos hk, hnone, Option.elim_none, Option.elim_some]
    · rw [if_neg hk, if_neg hk]

/-- Compaction writes the same map. -/
theorem Located.contents_compacted {keydir : Keydir} (h : Located content keydir M) :
    contents (compacted M) = M := by
  apply OrderedMap.ext_find?
  intro k
  rw [contents, compacted, find?_foldl_live M.sorted]
  cases hk : M.find? k with
  | none => rfl
  | some slot =>
    obtain ⟨v, -, hv, -⟩ := h.entry (OrderedMap.find?_eq_some.mp hk)
    simp only at hv
    simp [hv]

theorem insert_insert (files : Files) (path : Path) (a b : Bytes) :
    (files.insert path a).insert path b = files.insert path b := by
  apply OrderedMap.ext_find?
  intro k
  simp only [OrderedMap.find?_insert]
  split <;> rfl

theorem insert_find? {files : Files} {path : Path} {a : Bytes} (h : files.find? path = some a) :
    files.insert path a = files := by
  apply OrderedMap.ext_find?
  intro k
  rw [OrderedMap.find?_insert]
  split
  · next heq => rw [heq, h]
  · rfl

/-- The rewriting loop appends one record for every entry. -/
theorem rewriteLoop_run (names : TempNames) {items : List (Bytes × LogPosition)}
    {entries : List (Bytes × Slice)} (written : List Record) (hne : temp ≠ name)
    (hf : disk.files.find? name = some content)
    (htemp : disk.files.find? temp = some (encodeLog written))
    (h : List.Forall₂ (ItemOf content) items entries) :
    (rewriteLoop ⟨name⟩ ⟨temp⟩ items (logIndex written)).run (fileSystem names) disk =
      (.ok (logIndex (written ++ entries.map liveRecord)),
        { disk with
          files := disk.files.insert temp (encodeLog (written ++ entries.map liveRecord)) }) := by
  induction h generalizing disk written with
  | nil =>
    rw [List.map_nil, List.append_nil, insert_find? htemp]
    rfl
  | @cons item entry items entries hitem hrest ih =>
    obtain ⟨key, position⟩ := item
    obtain ⟨key', slot⟩ := entry
    obtain ⟨rfl, v, rfl, hat⟩ := hitem
    have hread := readLogValue_run names hf hat
    have hwrite := writeEntry_run names htemp hat.fits
    have hindex : (logIndex written).insert key
        ⟨(encodeLog written).length, (Record.mk key (some v)).size⟩ =
          logIndex (written ++ [⟨key, some v⟩]) := by
      rw [logIndex_append]
      rfl
    rw [rewriteLoop, Prog.bind_eq, Prog.run_bind, Prog.run_mapError, hread]
    simp only [Except.mapError, Prog.bind_eq, Prog.run_bind, Prog.run_mapError]
    simp only [Option.getD_some, Option.isNone_some] at hwrite
    rw [hwrite]
    simp only [hindex]
    refine (ih _ ?_ ?_).trans ?_
    · rw [OrderedMap.find?_insert, if_neg hne.symm, hf]
    · rw [OrderedMap.find?_insert, if_pos rfl, encodeLog_append, encodeLog_singleton]
    · simp [liveRecord, insert_insert]

/-- The names that compaction uses besides the name of the log. -/
structure Apart (name temp : Path) : Prop where
  temp_ne : temp ≠ name
  backup_ne : backupPath temp ≠ name
  backup_ne_temp : backupPath temp ≠ temp

def tempPath (names : TempNames) (name : Path) (disk : Disk) : Path :=
  compactStart name ++ names.suffix disk.files (compactStart name)

theorem start_ne (name suffix : Path) : compactStart name ++ suffix ≠ name := by
  intro heq
  have hlen := congrArg List.length heq
  simp [compactStart] at hlen

theorem tempPath_apart (names : TempNames) (name : Path) (disk : Disk) :
    Apart name (tempPath names name disk) := by
  refine ⟨start_ne _ _, ?_, ?_⟩
  · rw [backupPath, tempPath, List.append_assoc]
    exact start_ne _ _
  · simp [backupPath]

/-- The temporary file gets the compacted log, and the index is that of this log. -/
theorem rewrite_run (names : TempNames) (hne : temp ≠ name) (hlog : d.log = ⟨name⟩)
    (hf : disk.files.find? name = some content) (htemp : disk.files.find? temp = some [])
    (h : Located content d.keydir M) :
    (d.rewrite temp).run (fileSystem names) disk =
      (.ok (logIndex (compacted M)),
        { disk with files := disk.files.insert temp (encodeLog (compacted M)) }) := by
  have hloop := rewriteLoop_run names [] hne hf htemp h.entries
  rw [DiskEngine.rewrite, hlog, Prog.bind_eq, Prog.run_bind, Prog.run_mapError]
  erw [hloop]
  rfl

theorem run_rename (names : TempNames) {source : Path} (target : Path)
    (hs : disk.files.find? source = some content) :
    fileSystem names (.rename source target) disk =
      (.ok (), { disk with files := (disk.files.erase source).insert target content }) := by
  simp only [fileSystem, hs]

theorem run_remove (names : TempNames) (hs : disk.files.find? name = some content) :
    fileSystem names (.remove name) disk =
      (.ok (), { disk with files := disk.files.erase name }) := by
  simp [fileSystem, hs]

theorem run_openFile (names : TempNames) (hs : disk.files.find? name = some content) :
    fileSystem names (.openFile name) disk = (.ok (), disk) := by
  simp [fileSystem, hs]

/-- The directory between the two renames: the original is only there as the backup. -/
def movedAway (disk : Disk) (name temp : Path) (content : Bytes) : Disk :=
  { disk with files := (disk.files.erase name).insert (backupPath temp) content }

def movedIn (disk : Disk) (name temp : Path) (content log : Bytes) : Disk :=
  { disk with files := ((movedAway disk name temp content).files.erase temp).insert name log }

def installed (disk : Disk) (name temp : Path) (content log : Bytes) : Disk :=
  { disk with files := (movedIn disk name temp content log).files.erase (backupPath temp) }

section Install
variable {log : Bytes}

theorem movedAway_find_temp (hne : Apart name temp) (ht : disk.files.find? temp = some log) :
    (movedAway disk name temp content).files.find? temp = some log := by
  simp [movedAway, OrderedMap.find?_insert, OrderedMap.find?_erase, hne.backup_ne_temp.symm,
    hne.temp_ne, ht]

theorem movedAway_find_name (hne : Apart name temp) :
    (movedAway disk name temp content).files.find? name = none := by
  simp [movedAway, OrderedMap.find?_insert, OrderedMap.find?_erase, hne.backup_ne.symm]

theorem movedAway_find_backup :
    (movedAway disk name temp content).files.find? (backupPath temp) = some content := by
  simp [movedAway, OrderedMap.find?_insert]

theorem movedIn_find_name : (movedIn disk name temp content log).files.find? name = some log := by
  simp [movedIn, OrderedMap.find?_insert]

theorem movedIn_find_backup (hne : Apart name temp) :
    (movedIn disk name temp content log).files.find? (backupPath temp) = some content := by
  simp [movedIn, movedAway, OrderedMap.find?_insert, OrderedMap.find?_erase, hne.backup_ne,
    hne.backup_ne_temp]

theorem installed_find_name (hne : Apart name temp) :
    (installed disk name temp content log).files.find? name = some log := by
  rw [installed, OrderedMap.find?_erase, if_neg hne.backup_ne.symm, movedIn_find_name]

theorem installed_find_temp (hne : Apart name temp) :
    (installed disk name temp content log).files.find? temp = none := by
  simp [installed, movedIn, OrderedMap.find?_erase, OrderedMap.find?_insert, hne.temp_ne]

theorem run_moveAway (names : TempNames) (temp : Path) (hf : disk.files.find? name = some content) :
    fileSystem names (.rename name (backupPath temp)) disk =
      (.ok (), movedAway disk name temp content) := run_rename names _ hf

theorem run_moveIn (names : TempNames) (hne : Apart name temp)
    (ht : disk.files.find? temp = some log) :
    fileSystem names (.rename temp name) (movedAway disk name temp content) =
      (.ok (), movedIn disk name temp content log) :=
  run_rename names _ (movedAway_find_temp hne ht)

theorem run_openNew (names : TempNames) :
    fileSystem names (.openFile name) (movedIn disk name temp content log) =
      (.ok (), movedIn disk name temp content log) := run_openFile names movedIn_find_name

theorem run_removeBackup (names : TempNames) (hne : Apart name temp) :
    fileSystem names (.remove (backupPath temp)) (movedIn disk name temp content log) =
      (.ok (), installed disk name temp content log) :=
  run_remove names (movedIn_find_backup hne)

/-- The deferred Remove does not find the temporary file any more. -/
theorem run_removeTemp (names : TempNames) (hne : Apart name temp) :
    fileSystem names (.remove temp) (installed disk name temp content log) =
      (.error notExist, installed disk name temp content log) := by
  simp [fileSystem, installed_find_temp hne]

/-- Without errors the new log ends up under the name. -/
theorem install_run (names : TempNames) (keydir : Keydir) (hne : Apart name temp)
    (hlog : d.log = ⟨name⟩) (hf : disk.files.find? name = some content)
    (ht : disk.files.find? temp = some log) :
    (d.install temp keydir).run (fileSystem names) disk =
      (.ok { d with keydir := keydir }, installed disk name temp content log) := by
  obtain ⟨keydir₀, log₀, lock⟩ := d
  subst hlog
  simp only [DiskEngine.install, newDisLog, Prog.attempt, Prog.perform, Prog.bind_eq,
    Prog.bind_call, Prog.bind_done, Prog.run_call, run_moveAway names temp hf,
    run_moveIn names hne ht, run_openNew, run_removeBackup names hne, Prog.check_ok, Prog.pure_eq,
    Prog.run_done]

/-- The calls by which compaction changes what stands under the name. -/
def installCalls (name temp : Path) : List FileCall :=
  [.rename name (backupPath temp), .rename temp name, .openFile name, .remove (backupPath temp)]

theorem install_trace (names : TempNames) (keydir : Keydir) (hne : Apart name temp)
    (hlog : d.log = ⟨name⟩) (hf : disk.files.find? name = some content)
    (ht : disk.files.find? temp = some log) :
    (d.install temp keydir).trace (fileSystem names) disk = installCalls name temp := by
  obtain ⟨keydir₀, log₀, lock⟩ := d
  subst hlog
  simp only [DiskEngine.install, newDisLog, Prog.attempt, Prog.perform, Prog.bind_eq,
    Prog.bind_call, Prog.bind_done, Prog.trace_call, run_moveAway names temp hf,
    run_moveIn names hne ht, run_openNew, run_removeBackup names hne, Prog.check_ok, Prog.pure_eq,
    Prog.trace_done, installCalls]

end Install

def withTemp (names : TempNames) (name : Path) (disk : Disk) (content : Bytes) : Disk :=
  { disk with files := disk.files.insert (tempPath names name disk) content }

theorem withTemp_find_temp (names : TempNames) (name : Path) (disk : Disk) (content : Bytes) :
    (withTemp names name disk content).files.find? (tempPath names name disk) = some content := by
  simp [withTemp, OrderedMap.find?_insert]

theorem withTemp_find_name (names : TempNames) (name : Path) (disk : Disk) (content : Bytes) :
    (withTemp names name disk content).files.find? name = disk.files.find? name := by
  rw [withTemp, OrderedMap.find?_insert, if_neg (tempPath_apart names name disk).temp_ne.symm]

theorem run_createTemp (names : TempNames) (name : Path) (disk : Disk) :
    fileSystem names (.createTemp (compactStart name)) disk =
      (.ok (tempPath names name disk), withTemp names name disk []) := rfl

section Compact
variable (names : TempNames) (hlog : d.log = ⟨name⟩) (hf : disk.files.find? name = some content)
  (h : Located content d.keydir M)
include hlog hf h

/-- The original is still in its place when the new log is complete. -/
theorem rewrite_withTemp :
    (d.rewrite (tempPath names name disk)).run (fileSystem names) (withTemp names name disk []) =
      (.ok (logIndex (compacted M)), withTemp names name disk (encodeLog (compacted M))) := by
  have hrewrite := rewrite_run names (tempPath_apart names name disk).temp_ne hlog
    ((withTemp_find_name names name disk []).trans hf) (withTemp_find_temp names name disk []) h
  rwa [withTemp, insert_insert] at hrewrite

theorem compactInto_run :
    (d.compactInto (tempPath names name disk)).run (fileSystem names)
      (withTemp names name disk []) =
      (.ok { d with keydir := logIndex (compacted M) },
        installed (withTemp names name disk (encodeLog (compacted M))) name
          (tempPath names name disk) content (encodeLog (compacted M))) := by
  rw [DiskEngine.compactInto, Prog.bind_eq, Prog.run_bind_ok _ (rewrite_withTemp names hlog hf h)]
  exact install_run names _ (tempPath_apart names name disk) hlog
    ((withTemp_find_name names name disk _).trans hf) (withTemp_find_temp names name disk _)

theorem compactInto_trace :
    (d.compactInto (tempPath names name disk)).trace (fileSystem names)
        (withTemp names name disk []) =
      (d.rewrite (tempPath names name disk)).trace (fileSystem names)
        (withTemp names name disk []) ++
        installCalls name (tempPath names name disk) := by
  rw [DiskEngine.compactInto, Prog.bind_eq, Prog.trace_bind_ok _ (rewrite_withTemp names hlog hf h)]
  rw [install_trace names _ (tempPath_apart names name disk) hlog
    ((withTemp_find_name names name disk _).trans hf) (withTemp_find_temp names name disk _)]

/-- A compaction without errors leaves the compacted log under the name. -/
theorem compact_run : d.compact.run (fileSystem names) disk =
    (.ok { d with keydir := logIndex (compacted M) },
      installed (withTemp names name disk (encodeLog (compacted M))) name
        (tempPath names name disk) content (encodeLog (compacted M))) := by
  have hinto := compactInto_run names hlog hf h
  obtain ⟨keydir, log, lock⟩ := d
  subst hlog
  simp only [DiskEngine.compact, Prog.perform, Prog.bind_eq, Prog.bind_call, Prog.bind_done,
    Prog.run_call, run_createTemp, Prog.check_ok, Prog.run_bind, Prog.run_attempt, hinto,
    Prog.run_ofExcept]
  -- the close before it changes no file
  change (_, (fileSystem names (.remove (tempPath names name disk)) (installed _ _ _ _ _)).2) = _
  rw [run_removeTemp names (tempPath_apart names name disk)]

/-- The calls of a compaction, in their order. -/
theorem compact_trace : d.compact.trace (fileSystem names) disk =
    .createTemp (compactStart name) ::
      (d.rewrite (tempPath names name disk)).trace (fileSystem names)
        (withTemp names name disk []) ++
      installCalls name (tempPath names name disk) ++
      [.close (tempPath names name disk), .remove (tempPath names name disk)] := by
  have hinto := compactInto_run names hlog hf h
  have htrace := compactInto_trace names hlog hf h
  obtain ⟨keydir, log, lock⟩ := d
  subst hlog
  simp only [DiskEngine.compact, Prog.perform, Prog.bind_eq, Prog.bind_call, Prog.bind_done,
    Prog.trace_call, run_createTemp, Prog.check_ok]
  have hattempt := Prog.run_attempt (ε := DiskEngine × Error) (fileSystem names)
    (DiskEngine.compactInto ⟨keydir, ⟨name⟩, lock⟩ (tempPath names name disk))
    (withTemp names name disk [])
  rw [hinto] at hattempt
  rw [Prog.trace_bind_ok _ hattempt, Prog.trace_attempt, htrace]
  simp

end Compact

end SpaceDB.Proofs
