import Mathlib.Data.List.Induction
import SpaceDB.Proofs.DiskReads

namespace SpaceDB.Proofs
open Lib Storage

variable {names : TempNames} {disk disk' : Disk} {name : Path} {content : Bytes} {d : DiskEngine}
  {rs : List Record}

def encodeLog (rs : List Record) : Bytes := rs.flatMap Record.bytes

theorem encodeLog_append (rs rs' : List Record) :
    encodeLog (rs ++ rs') = encodeLog rs ++ encodeLog rs' := List.flatMap_append

theorem encodeLog_cons (r : Record) (rs : List Record) :
    encodeLog (r :: rs) = r.bytes ++ encodeLog rs := rfl

@[simp] theorem encodeLog_singleton (r : Record) : encodeLog [r] = r.bytes := by
  simp [encodeLog]

theorem encodeLog_eq_nil (h : encodeLog rs = []) : rs = [] := by
  cases rs with
  | nil => rfl
  | cons r rs =>
    have hlen := congrArg List.length h
    have hpos := r.size_pos
    simp only [encodeLog_cons, List.length_append, Record.bytes_length, List.length_nil] at hlen
    omega

def applyRecord (M : Store) (r : Record) : Store :=
  r.value.elim (M.erase r.key) fun v => M.insert r.key (some v)

def contents (rs : List Record) : Store := rs.foldl applyRecord .empty

def indexRecord (offset : Nat) (keydir : Keydir) (r : Record) : Keydir :=
  r.value.elim (keydir.erase r.key) fun _ => keydir.insert r.key ⟨offset, r.size⟩

def indexFrom (offset : Nat) (keydir : Keydir) : List Record → Keydir
  | [] => keydir
  | r :: rs => indexFrom (offset + r.size) (indexRecord offset keydir r) rs

def logIndex (rs : List Record) : Keydir := indexFrom 0 .empty rs

theorem indexFrom_append (offset : Nat) (keydir : Keydir) (rs : List Record) (r : Record) :
    indexFrom offset keydir (rs ++ [r]) =
      indexRecord (offset + (encodeLog rs).length) (indexFrom offset keydir rs) r := by
  induction rs generalizing offset keydir with
  | nil => rfl
  | cons r' rs ih =>
    rw [List.cons_append, indexFrom, indexFrom, ih, encodeLog_cons, List.length_append,
      Record.bytes_length, Nat.add_assoc]

theorem logIndex_append (rs : List Record) (r : Record) :
    logIndex (rs ++ [r]) = indexRecord (encodeLog rs).length (logIndex rs) r := by
  rw [logIndex, indexFrom_append, Nat.zero_add, logIndex]

theorem contents_append (rs : List Record) (r : Record) :
    contents (rs ++ [r]) = applyRecord (contents rs) r := by
  simp [contents, List.foldl_append]

/-- Appending one record to a log and indexing it. -/
theorem Located.record {keydir : Keydir} {M : Store} {r : Record} (h : Located content keydir M)
    (hr : r.Fits) : Located (content ++ r.bytes) (indexRecord content.length keydir r)
      (applyRecord M r) := by
  obtain ⟨key, value⟩ := r
  cases value with
  | none => exact (h.append _).erase key
  | some v => exact (h.append _).insert ⟨hr, sliceAt_end _ _, rfl⟩

theorem located_log (hfits : ∀ r ∈ rs, r.Fits) :
    Located (encodeLog rs) (logIndex rs) (contents rs) := by
  induction rs using List.reverseRecOn with
  | nil => exact located_empty _
  | append_singleton rs r ih =>
    rw [logIndex_append, contents_append, encodeLog_append, encodeLog_singleton]
    exact (ih fun r hr => hfits r (by simp [hr])).record (hfits r (by simp))

/-- The value size in the header says how many bytes the value takes. -/
theorem storedValueSize_record (r : Record) :
    storedValueSize r.valueSize = some (r.value.getD []).length := by
  obtain ⟨key, value⟩ := r
  cases value with
  | none => rfl
  | some v =>
    have hne : (v.length : Int) ≠ diskLogTombstoneSize := by
      rw [diskLogTombstoneSize]
      omega
    change storedValueSize (v.length : Int) = _
    rw [storedValueSize, if_neg hne, if_pos (Int.natCast_nonneg _)]
    rfl

theorem valueSize_tombstone {r : Record} : r.valueSize = diskLogTombstoneSize ↔ r.value = none := by
  obtain ⟨key, value⟩ := r
  cases value with
  | none => simp [Record.valueSize]
  | some v =>
    simp only [Record.valueSize, Option.elim_some, diskLogTombstoneSize, reduceCtorEq]

/-- The checks of `rebuildKeydir` accept a record that is there as a whole. -/
theorem indexEntry_record {r : Record} {fileSize offset : Nat} (keydir : Keydir) (hr : r.Fits)
    (hle : offset + r.size ≤ fileSize) :
    indexEntry fileSize offset keydir r.key r.valueSize =
      .ok (indexRecord offset keydir r, r.size) := by
  have hcheck : ¬ (r.size > maxDiskLogEntrySize ∨ r.size > fileSize - offset) := by
    have := hr.2
    omega
  rw [indexEntry, storedValueSize_record]
  refine (if_neg hcheck).trans ?_
  cases hv : r.value with
  | none => rw [if_pos (valueSize_tombstone.mpr hv), indexRecord, Record.size, hv]; rfl
  | some v =>
    rw [if_neg (by rw [valueSize_tombstone, hv]; simp), indexRecord, Record.size, hv]
    rfl

/-- The loop indexes the records from its offset on. There are enough rounds
when there is one for every byte. -/
theorem rebuildLoop_run (names : TempNames) (before : Bytes) (rounds : Nat) (keydir : Keydir)
    (hfits : ∀ r ∈ rs, r.Fits) (hf : disk.files.find? name = some (before ++ encodeLog rs))
    (hrounds : (encodeLog rs).length ≤ rounds) :
    (rebuildLoop ⟨name⟩ (before ++ encodeLog rs).length rounds before.length keydir).run
        (fileSystem names) disk = (.ok (indexFrom before.length keydir rs), disk) := by
  induction rs generalizing before rounds keydir with
  | nil => cases rounds <;> simp [rebuildLoop, indexFrom, encodeLog]
  | cons r rs ih =>
    have hr := hfits r List.mem_cons_self
    have hpos := r.size_pos
    rw [encodeLog_cons, List.length_append, Record.bytes_length] at hrounds
    obtain ⟨m, rfl⟩ : ∃ m, rounds = m + 1 := ⟨rounds - 1, by omega⟩
    have hlen : (before ++ encodeLog (r :: rs)).length =
        before.length + r.size + (encodeLog rs).length := by
      rw [encodeLog_cons, List.length_append, List.length_append, Record.bytes_length]
      omega
    have hslice : SliceAt (before ++ encodeLog (r :: rs)) before.length r.bytes :=
      ⟨before, encodeLog rs, rfl, rfl⟩
    have hread := readEntry_run names hf hr hslice
    have hrest := ih (before ++ r.bytes) m (indexRecord before.length keydir r)
      (fun r' h' => hfits r' (List.mem_cons_of_mem _ h'))
      (by rw [hf, encodeLog_cons, List.append_assoc]) (by omega)
    have hbefore : (before ++ r.bytes).length = before.length + r.size := by simp
    rw [List.append_assoc, ← encodeLog_cons, hbefore] at hrest
    rw [rebuildLoop, if_pos (by omega), Prog.bind_eq, Prog.run_bind, Prog.run_mapError, hread]
    simp only [Except.mapError, indexEntry_record keydir hr
      (show before.length + r.size ≤ (before ++ encodeLog (r :: rs)).length by omega),
      Prog.ofExcept_ok, Prog.bind_eq, Prog.bind_done]
    exact hrest

/-- What is read stands in the file at that offset. -/
theorem readBytes_ok {offset size : Nat} {part : Bytes} (hoff : offset ≤ content.length)
    (h : readBytes content offset size = .ok part) :
    part.length = size ∧ SliceAt content offset part := by
  unfold readBytes at h
  split_ifs at h with h0 hle
  · cases h
    exact ⟨h0.symm, by simpa using sliceAt_take_drop (n := 0) hoff⟩
  · cases h
    refine ⟨?_, sliceAt_take_drop hle⟩
    rw [List.length_take, List.length_drop]
    omega

theorem uint32_int32 {x : Nat} (h : x < 2 ^ 32) : uint32 (int32 x) = x := by
  unfold int32 uint32
  split_ifs <;> omega

theorem int32_bounds {x : Nat} (h : x < 2 ^ 32) : -2 ^ 31 ≤ int32 x ∧ int32 x < 2 ^ 31 := by
  unfold int32
  split_ifs <;> omega

/-- What `readEntry` has read is there as a header and a key. -/
theorem readEntry_ok {offset : Nat} {key : Bytes} {valueSize : Int}
    (hf : disk.files.find? name = some content) (hoff : offset ≤ content.length)
    (h : (DiskLog.readEntry ⟨name⟩ offset).run (fileSystem names) disk =
      (.ok (key, valueSize), disk')) :
    disk' = disk ∧ valueSize < 2 ^ 31 ∧
      SliceAt content offset (putUint 4 key.length ++ putUint 4 (uint32 valueSize) ++ key) := by
  simp only [DiskLog.readEntry, Prog.perform, Prog.bind_eq, Prog.bind_call, Prog.bind_done,
    Prog.run_call, run_readAt hf, diskLogHeaderSize] at h
  cases hh : readBytes content offset 8 with
  | error e =>
    rw [hh] at h
    cases h
  | ok header =>
    obtain ⟨hlen, hslice⟩ := readBytes_ok hoff hh
    have hle := hslice.le
    simp only [hh, Prog.check_ok, Prog.bind_done, Prog.run_call, run_readAt hf] at h
    cases hk : readBytes content (offset + 8) (uint (header.take 4)) with
    | error e =>
      rw [hk] at h
      cases h
    | ok key' =>
      obtain ⟨hlen', hslice'⟩ := readBytes_ok (by omega) hk
      simp only [hk, Prog.check_ok, Prog.bind_done, Prog.pure_eq, Prog.run_done, Prod.mk.injEq,
        Except.ok.injEq] at h
      obtain ⟨⟨rfl, rfl⟩, rfl⟩ := h
      have htake : (header.take 4).length = 4 := by simp [hlen]
      have hdrop : (header.drop 4).length = 4 := by simp [hlen]
      have hlt : uint (header.drop 4) < 2 ^ 32 := by
        have := uint_lt (header.drop 4)
        rw [hdrop] at this
        omega
      have hheader : putUint 4 key'.length ++ putUint 4 (uint32 (int32 (uint (header.drop 4)))) =
          header := by
        have h1 := putUint_uint (header.take 4)
        have h2 := putUint_uint (header.drop 4)
        rw [htake] at h1
        rw [hdrop] at h2
        rw [uint32_int32 hlt, hlen', h1, h2, List.take_append_drop]
      refine ⟨rfl, (int32_bounds hlt).2, ?_⟩
      rw [hheader]
      exact hslice.join (by rw [hlen]; exact hslice')

/-- A record that passes the checks is there as a whole. -/
theorem indexEntry_ok {offset entrySize : Nat} {key : Bytes} {valueSize : Int}
    {keydir keydir' : Keydir} (hlt : valueSize < 2 ^ 31)
    (hslice : SliceAt content offset (putUint 4 key.length ++ putUint 4 (uint32 valueSize) ++ key))
    (h : indexEntry content.length offset keydir key valueSize = .ok (keydir', entrySize)) :
    ∃ r : Record, r.Fits ∧ SliceAt content offset r.bytes ∧ entrySize = r.size ∧
      keydir' = indexRecord offset keydir r := by
  unfold indexEntry at h
  cases hs : storedValueSize valueSize with
  | none =>
    rw [hs] at h
    cases h
  | some stored =>
    rw [hs] at h
    dsimp only at h
    split_ifs at h with hcheck htomb
    · -- a tombstone
      cases h
      have hzero : stored = 0 := by simpa [storedValueSize, htomb] using hs.symm
      subst hzero
      refine ⟨⟨key, none⟩, ⟨by simp, ?_⟩, ?_, rfl, rfl⟩
      · simp only [Record.size, Option.getD_none, List.length_nil]
        omega
      · rw [Record.bytes_eq]
        simpa [Record.valueSize, htomb] using hslice
    · cases h
      have hnat : 0 ≤ valueSize ∧ stored = valueSize.toNat := by
        simp only [storedValueSize, if_neg htomb] at hs
        split_ifs at hs with h0
        exact ⟨h0, (Option.some.inj hs).symm⟩
      have hle := hslice.le
      simp only [List.length_append, putUint_length] at hle
      simp only [diskLogHeaderSize, maxDiskLogEntrySize, not_or, not_lt] at hcheck
      have hvalue : SliceAt content (offset + (4 + 4 + key.length))
          ((content.drop (offset + (4 + 4 + key.length))).take stored) :=
        sliceAt_take_drop (by omega)
      have hvlen :
          ((content.drop (offset + (4 + 4 + key.length))).take stored).length = stored := by
        rw [List.length_take, List.length_drop]
        omega
      refine ⟨⟨key, some ((content.drop (offset + (4 + 4 + key.length))).take stored)⟩,
        ⟨?_, ?_⟩, ?_, ?_, ?_⟩
      · simp only [Option.getD_some, hvlen, maxDiskLogValueSize]
        omega
      · simp only [Record.size, Option.getD_some, hvlen, maxDiskLogEntrySize, diskLogHeaderSize]
        omega
      · have hsize : (Record.mk key (some ((content.drop (offset + (4 + 4 + key.length))).take
            stored))).valueSize = valueSize := by
          simp only [Record.valueSize, Option.elim_some, hvlen]
          omega
        rw [Record.bytes_eq, hsize, ← List.append_assoc]
        refine hslice.join ?_
        rw [List.length_append, List.length_append, putUint_length, putUint_length]
        exact hvalue
      · simp only [Record.size, Option.getD_some, hvlen]
      · simp only [indexRecord, Option.elim_some, Record.size, Option.getD_some, hvlen]

/-- Every file that the loop accepts is a log of records that fit. -/
theorem rebuildLoop_ok {rounds offset : Nat} {keydir keydir' : Keydir}
    (hf : disk.files.find? name = some content) (hoff : offset ≤ content.length)
    (hrounds : content.length - offset ≤ rounds)
    (h : (rebuildLoop ⟨name⟩ content.length rounds offset keydir).run (fileSystem names) disk =
      (.ok keydir', disk')) :
    disk' = disk ∧ ∃ rs, (∀ r ∈ rs, Record.Fits r) ∧ content.drop offset = encodeLog rs ∧
      keydir' = indexFrom offset keydir rs := by
  induction rounds generalizing offset keydir with
  | zero =>
    cases h
    refine ⟨rfl, [], by simp, ?_, rfl⟩
    exact List.drop_eq_nil_of_le (by omega)
  | succ rounds ih =>
    rw [rebuildLoop] at h
    split_ifs at h with hlt
    · rw [Prog.bind_eq, Prog.run_bind, Prog.run_mapError] at h
      rcases hread : (DiskLog.readEntry ⟨name⟩ offset).run (fileSystem names) disk with
        ⟨e | ⟨key, valueSize⟩, disk₁⟩
      · rw [hread] at h
        cases h
      · obtain ⟨rfl, hvs, hslice⟩ := readEntry_ok hf hoff hread
        rw [hread] at h
        simp only [Except.mapError, Prog.bind_eq] at h
        cases hidx : indexEntry content.length offset keydir key valueSize with
        | error e =>
          rw [hidx] at h
          cases h
        | ok out =>
          obtain ⟨keydir₁, entrySize⟩ := out
          rw [hidx] at h
          obtain ⟨r, hr, hrs, rfl, rfl⟩ := indexEntry_ok hvs hslice hidx
          have hpos := r.size_pos
          have hle := hrs.le
          rw [Record.bytes_length] at hle
          obtain ⟨rfl, rs, hfits, hdrop, rfl⟩ := ih (by omega) (by omega) h
          refine ⟨rfl, r :: rs, ?_, ?_, rfl⟩
          · intro r' hr'
            rcases List.mem_cons.mp hr' with rfl | hr'
            · exact hr
            · exact hfits r' hr'
          · rw [hrs.drop_eq, Record.bytes_length, hdrop, encodeLog_cons]
    · cases h
      refine ⟨rfl, [], by simp, ?_, rfl⟩
      exact List.drop_eq_nil_of_le (by omega)

/-- `rebuildKeydir` up to its loop. -/
theorem rebuildKeydir_eq (names : TempNames) (hf : disk.files.find? name = some content) :
    (rebuildKeydir ⟨name⟩).run (fileSystem names) disk =
      (rebuildLoop ⟨name⟩ content.length content.length 0 .empty).run (fileSystem names) disk := by
  simp only [rebuildKeydir, Prog.perform, Prog.bind_eq, Prog.bind_call, Prog.bind_done,
    Prog.run_call, fileSystem, hf, Option.map_some, Option.elim_some, Prog.check_ok]

theorem rebuildKeydir_run (hfits : ∀ r ∈ rs, r.Fits)
    (hf : disk.files.find? name = some (encodeLog rs)) :
    (rebuildKeydir ⟨name⟩).run (fileSystem names) disk = (.ok (logIndex rs), disk) := by
  rw [rebuildKeydir_eq names hf]
  exact rebuildLoop_run names [] _ .empty hfits hf (le_refl _)

theorem rebuildKeydir_ok {keydir : Keydir} (hf : disk.files.find? name = some content)
    (h : (rebuildKeydir ⟨name⟩).run (fileSystem names) disk = (.ok keydir, disk')) :
    disk' = disk ∧ ∃ rs, (∀ r ∈ rs, Record.Fits r) ∧ content = encodeLog rs ∧
      keydir = logIndex rs := by
  rw [rebuildKeydir_eq names hf] at h
  exact rebuildLoop_ok hf (Nat.zero_le _) (le_refl _) h

def openedDisk (name : Path) (disk : Disk) : Disk where
  files := if (disk.files.find? name).isSome then disk.files else disk.files.insert name []
  locked := lockPath name :: disk.locked

/-- A file that is missing is created empty. -/
theorem openedDisk_find (name : Path) (disk : Disk) :
    (openedDisk name disk).files.find? name = some ((disk.files.find? name).getD []) := by
  unfold openedDisk
  cases h : disk.files.find? name with
  | none => simp [OrderedMap.find?_insert]
  | some content => simp [h]

theorem newDisLog_run (name : Path) (disk : Disk) :
    (newDisLog name).run (fileSystem names) disk = (.ok ⟨name⟩,
      { disk with
        files := if (disk.files.find? name).isSome then disk.files
          else disk.files.insert name [] }) := by
  simp only [newDisLog, Prog.perform, Prog.bind_eq, Prog.bind_call, Prog.bind_done, Prog.run_call,
    fileSystem, Prog.check_ok, Prog.pure_eq, Prog.run_done]
  split_ifs <;> rfl

/-- `newDiskEngine` up to the replay of the log. -/
theorem newDiskEngine_eq (hlock : lockPath name ∉ disk.locked) :
    (newDiskEngine name).run (fileSystem names) disk =
      match (rebuildKeydir ⟨name⟩).run (fileSystem names) (openedDisk name disk) with
      | (.ok keydir, disk') => (.ok ⟨keydir, ⟨name⟩, lockPath name⟩, disk')
      | (.error e, disk') =>
        (.error (.wrap "storage: rebuilding keydir from %q: %w" [.bytes name] e),
          { disk' with locked := disk'.locked.filter (fun p => decide (p ≠ lockPath name)) }) := by
  rcases hreb : (rebuildKeydir ⟨name⟩).run (fileSystem names) (openedDisk name disk) with
    ⟨e | keydir, disk'⟩
  all_goals
    unfold openedDisk at hreb
    simp only [newDiskEngine, Prog.perform, Prog.bind_eq, Prog.bind_call, Prog.bind_done,
      Prog.run_call, fileSystem, if_neg hlock, Prog.check_ok, Bool.not_true, Bool.false_eq_true,
      if_false, Prog.run_bind, Prog.run_attempt, newDisLog_run, hreb]
    rfl

theorem newDiskEngine_run (hlock : lockPath name ∉ disk.locked) (hfits : ∀ r ∈ rs, r.Fits)
    (hf : (disk.files.find? name).getD [] = encodeLog rs) :
    (newDiskEngine name).run (fileSystem names) disk =
      (.ok ⟨logIndex rs, ⟨name⟩, lockPath name⟩, openedDisk name disk) := by
  have hfind := openedDisk_find name disk
  rw [hf] at hfind
  rw [newDiskEngine_eq hlock, rebuildKeydir_run hfits hfind]

/-- An engine that has been opened holds a log of records. -/
theorem newDiskEngine_ok (h : (newDiskEngine name).run (fileSystem names) disk = (.ok d, disk')) :
    lockPath name ∉ disk.locked ∧ disk' = openedDisk name disk ∧
      ∃ rs, (∀ r ∈ rs, Record.Fits r) ∧ (disk.files.find? name).getD [] = encodeLog rs ∧
        d = ⟨logIndex rs, ⟨name⟩, lockPath name⟩ := by
  by_cases hlock : lockPath name ∈ disk.locked
  · simp [newDiskEngine, Prog.perform, fileSystem, hlock] at h
  · rw [newDiskEngine_eq hlock] at h
    rcases hreb : (rebuildKeydir ⟨name⟩).run (fileSystem names) (openedDisk name disk) with
      ⟨e | keydir, disk₁⟩
    · rw [hreb] at h
      cases h
    · rw [hreb] at h
      obtain ⟨rfl, rs, hfits, hcontent, rfl⟩ := rebuildKeydir_ok (openedDisk_find name disk) hreb
      cases h
      exact ⟨hlock, rfl, rs, hfits, hcontent, rfl⟩

end SpaceDB.Proofs
