import SpaceDB.Proofs.DiskReplay

namespace SpaceDB.Proofs
open Lib Storage

variable {names : TempNames} {disk disk' : Disk} {name : Path} {content : Bytes}
  {rs rs' : List Record} {r : Record}

def writeEntries (log : DiskLog) : List Record → FileProg Error Unit
  | [] => .done ()
  | r :: rs => do
    let _ ← log.writeEntry r.key (r.value.getD []) r.value.isNone
    writeEntries log rs

/-- Written to an empty file, the records make these bytes. -/
def Writes (names : TempNames) (name : Path) (rs : List Record) (content : Bytes) : Prop :=
  ∃ disk, (writeEntries ⟨name⟩ rs).run (fileSystem names) ⟨.insert .empty name [], []⟩ =
    (.ok (), disk) ∧
    disk.files.find? name = some content

theorem writeEntry_fits {position : LogPosition}
    (h : (DiskLog.writeEntry ⟨name⟩ r.key (r.value.getD []) r.value.isNone).run
      (fileSystem names) disk =
      (.ok position, disk')) : r.Fits := by
  rw [← checkEntrySize_iff]
  cases hcheck : checkEntrySize r.key (r.value.getD []) r.value.isNone with
  | ok u => rfl
  | error e =>
    rw [writeEntry_oversized _ hcheck] at h
    cases h

/-- The records are appended one after the other, as long as each one fits. -/
theorem writeEntries_run {content' : Bytes} (hf : disk.files.find? name = some content) :
    (∃ disk', (writeEntries ⟨name⟩ rs).run (fileSystem names) disk = (.ok (), disk') ∧
        disk'.files.find? name = some content') ↔
      (∀ r ∈ rs, r.Fits) ∧ content' = content ++ encodeLog rs := by
  induction rs generalizing disk content with
  | nil => simp [writeEntries, encodeLog, hf, eq_comm]
  | cons r rs ih =>
    have hfound :
        ({ disk with files := disk.files.insert name (content ++ r.bytes) } : Disk).files.find?
        name = some (content ++ r.bytes) := by
      simp [OrderedMap.find?_insert]
    have hnext := ih hfound
    rw [List.append_assoc, ← encodeLog_cons] at hnext
    rw [List.forall_mem_cons, and_assoc, ← hnext, writeEntries, Prog.bind_eq]
    constructor
    · rintro ⟨disk', hrun, hcontent⟩
      obtain ⟨position, mid, hwrite, -⟩ := Prog.run_bind_inv (fileSystem names) hrun
      have hr := writeEntry_fits hwrite
      rw [Prog.run_bind_ok _ (writeEntry_run names hf hr)] at hrun
      exact ⟨hr, disk', hrun, hcontent⟩
    · rintro ⟨hr, disk', hrun, hcontent⟩
      exact ⟨disk', by rw [Prog.run_bind_ok _ (writeEntry_run names hf hr), hrun], hcontent⟩

/-- The files that `writeEntry` can make are the logs of records that fit. -/
theorem writes_iff : Writes names name rs content ↔ (∀ r ∈ rs, r.Fits) ∧
    content = encodeLog rs := by
  have hfound : (⟨.insert .empty name [], []⟩ : Disk).files.find? name = some [] := by
    simp [OrderedMap.find?_insert]
  exact writeEntries_run hfound

/-- The bytes of a log determine its records. -/
theorem encodeLog_injective (hfits : ∀ r ∈ rs, r.Fits) (hfits' : ∀ r ∈ rs', r.Fits)
    (h : encodeLog rs = encodeLog rs') : rs = rs' := by
  induction rs generalizing rs' with
  | nil => exact (encodeLog_eq_nil h.symm).symm
  | cons r rs ih =>
    cases rs' with
    | nil => exact encodeLog_eq_nil h
    | cons r' rs' =>
      rw [encodeLog_cons, encodeLog_cons] at h
      obtain rfl := Record.bytes_inj (hfits r List.mem_cons_self) (hfits' r' List.mem_cons_self) h
      rw [ih (fun r hr => hfits r (List.mem_cons_of_mem _ hr))
        (fun r hr => hfits' r (List.mem_cons_of_mem _ hr)) (List.append_cancel_left h)]

/-- The last record of the key has this value and stands at this position. -/
def NewestAt (rs : List Record) (key : Bytes) (position : LogPosition) (value : Bytes) : Prop :=
  ∃ before after, rs = before ++ ⟨key, some value⟩ :: after ∧ (∀ r ∈ after, r.key ≠ key) ∧
    position = ⟨(encodeLog before).length, (Record.mk key (some value)).size⟩

/-- The newest record of a key after one record more. -/
theorem newestAt_append {key value : Bytes} {position : LogPosition} :
    NewestAt (rs ++ [r]) key position value ↔
      if r.key = key then r.value = some value ∧ position = ⟨(encodeLog rs).length, r.size⟩
      else NewestAt rs key position value := by
  obtain ⟨key', value'⟩ := r
  constructor
  · rintro ⟨before, after, hrs, hafter, hposition⟩
    rcases List.eq_nil_or_concat' after with rfl | ⟨after, last, rfl⟩
    · obtain ⟨rfl, hr⟩ := List.append_inj' hrs rfl
      cases hr
      rw [if_pos rfl]
      exact ⟨rfl, hposition⟩
    · rw [← List.cons_append, ← List.append_assoc] at hrs
      obtain ⟨rfl, hr⟩ := List.append_inj' hrs rfl
      cases hr
      rw [if_neg (hafter _ (by simp))]
      exact ⟨before, after, rfl, fun r hr => hafter r (by simp [hr]), hposition⟩
  · split_ifs with hkey
    · rintro ⟨hvalue, hposition⟩
      simp only at hkey hvalue
      subst hkey hvalue
      exact ⟨rs, [], rfl, by simp, hposition⟩
    · rintro ⟨before, after, rfl, hafter, hposition⟩
      refine ⟨before, after ++ [⟨key', value'⟩], by simp, ?_, hposition⟩
      intro r hr
      rcases List.mem_append.mp hr with hr | hr
      · exact hafter r hr
      · rw [List.mem_singleton.mp hr]
        exact hkey

/-- The index of a log: the last write of a key wins, and a tombstone after it
removes the key. -/
theorem logIndex_iff {key : Bytes} {position : LogPosition} :
    (logIndex rs).find? key = some position ↔ ∃ value, NewestAt rs key position value := by
  induction rs using List.reverseRecOn generalizing key position with
  | nil =>
    constructor
    · intro h
      cases h
    · rintro ⟨value, before, after, hrs, -⟩
      simp at hrs
  | append_singleton rs r ih =>
    obtain ⟨key', value'⟩ := r
    simp only [newestAt_append, logIndex_append]
    cases value' with
    | none =>
      simp only [indexRecord, Option.elim_none, OrderedMap.find?_erase]
      by_cases hkey : key' = key
      · simp [hkey]
      · simp [hkey, Ne.symm hkey, ih]
    | some v =>
      simp only [indexRecord, Option.elim_some, OrderedMap.find?_insert]
      by_cases hkey : key' = key
      · simp [hkey, eq_comm]
      · simp [hkey, Ne.symm hkey, ih]

theorem NewestAt.holdsAt {key value : Bytes} {position : LogPosition} (hfits : ∀ r ∈ rs, r.Fits)
    (h : NewestAt rs key position value) : HoldsAt (encodeLog rs) position key value := by
  obtain ⟨before, after, rfl, -, rfl⟩ := h
  refine ⟨hfits _ (by simp), ⟨encodeLog before, encodeLog after, ?_, rfl⟩, rfl⟩
  rw [encodeLog_append, encodeLog_cons]

theorem indexEntry_size {fileSize offset entrySize : Nat} {keydir keydir' : Keydir} {key : Bytes}
    {valueSize : Int}
    (h : indexEntry fileSize offset keydir key valueSize = .ok (keydir', entrySize)) :
    0 < entrySize := by
  unfold indexEntry at h
  split at h
  · cases h
  · dsimp only at h
    split_ifs at h <;> cases h <;> simp [diskLogHeaderSize]

/-- Every round goes on by a header at least, so that more rounds than bytes
change nothing. -/
theorem rebuildLoop_rounds (log : DiskLog) {fileSize rounds offset : Nat} {keydir : Keydir}
    (h : fileSize - offset ≤ rounds) :
    rebuildLoop log fileSize (rounds + 1) offset keydir =
    rebuildLoop log fileSize rounds offset keydir := by
  induction rounds generalizing offset keydir with
  | zero =>
    have hend : ¬ offset < fileSize := by omega
    simp [rebuildLoop, hend]
  | succ rounds ih =>
    rw [rebuildLoop, rebuildLoop]
    split_ifs with hlt
    · congr 1
      funext entry
      obtain ⟨key, valueSize⟩ := entry
      dsimp only
      cases hentry : indexEntry fileSize offset keydir key valueSize with
      | error e => rfl
      | ok out =>
        obtain ⟨keydir', entrySize⟩ := out
        have hpos := indexEntry_size hentry
        exact ih (by omega)
    · rfl

def Looks : FileCall → Prop
  | .readAt _ _ _ | .stat _ => True
  | _ => False

theorem looks_keeps (c : FileCall) (disk : Disk) (hc : Looks c) :
    (fileSystem names c disk).2 = disk := by
  cases c with
  | readAt file offset size => rfl
  | stat file => rfl
  | _ => exact hc.elim

theorem readEntry_looks (log : DiskLog) (offset : Nat) :
    (log.readEntry offset).Guarded Looks (fun _ _ => False) := by
  refine ⟨trivial, fun _ => False.elim, fun header => ?_⟩
  refine (Prog.guarded_check _ _).bind (fun _ => ⟨trivial, fun _ => False.elim, fun key => ?_⟩)
  exact (Prog.guarded_check _ _).bind (fun _ => trivial)

/-- Replaying a log only looks at it. -/
theorem rebuildLoop_looks (log : DiskLog) (fileSize rounds offset : Nat) (keydir : Keydir) :
    (rebuildLoop log fileSize rounds offset keydir).Guarded Looks (fun _ _ => False) := by
  induction rounds generalizing offset keydir with
  | zero => exact trivial
  | succ rounds ih =>
    rw [rebuildLoop]
    split_ifs
    · refine (readEntry_looks log offset).mapError.bind (fun entry => ?_)
      exact (Prog.guarded_ofExcept _).bind (fun out => ih _ _)
    · exact trivial

theorem rebuildKeydir_looks (log : DiskLog) :
    (rebuildKeydir log).Guarded Looks (fun _ _ => False) := by
  refine ⟨trivial, fun _ => False.elim, fun size => ?_⟩
  exact (Prog.guarded_check _ _).bind (fun fileSize => rebuildLoop_looks log fileSize _ _ _)

theorem rebuildKeydir_disk (names : TempNames) (log : DiskLog) (disk : Disk) :
    ((rebuildKeydir log).run (fileSystem names) disk).2 = disk :=
  (rebuildKeydir_looks log).run (Q := (· = disk)) _
    (fun c s hc hs => (looks_keeps c s hc).trans hs) rfl

/-- `rebuildKeydir` accepts exactly the files that `writeEntry` can make. It then
indexes the one sequence of records there is, each key at its last write, where
`readLogValue` finds the value. On any other file it ends with an error. However
many rounds its loop has, they do not run out. -/
theorem log_reader_exact (names : TempNames) (hf : disk.files.find? name = some content) :
    ((∃ keydir, (rebuildKeydir ⟨name⟩).run (fileSystem names) disk = (.ok keydir, disk)) ↔
        ∃ rs, Writes names name rs content) ∧
      (∀ rs, Writes names name rs content →
        (∀ rs', Writes names name rs' content → rs' = rs) ∧
        ∃ keydir, (rebuildKeydir ⟨name⟩).run (fileSystem names) disk = (.ok keydir, disk) ∧
          (∀ key position, keydir.find? key = some position ↔ ∃ value,
            NewestAt rs key position value) ∧
          ∀ key position value, NewestAt rs key position value →
            (DiskLog.readLogValue ⟨name⟩ position).run (fileSystem names) disk =
            (.ok value, disk)) ∧
      ((¬ ∃ rs, Writes names name rs content) →
        ∃ e, (rebuildKeydir ⟨name⟩).run (fileSystem names) disk = (.error e, disk)) ∧
      ∀ rounds, content.length ≤ rounds →
        (rebuildLoop ⟨name⟩ content.length rounds 0 .empty).run (fileSystem names) disk =
          (rebuildKeydir ⟨name⟩).run (fileSystem names) disk := by
  have haccept : ∀ rs, Writes names name rs content →
      (rebuildKeydir ⟨name⟩).run (fileSystem names) disk = (.ok (logIndex rs), disk) := by
    intro rs hrs
    obtain ⟨hfits, rfl⟩ := writes_iff.mp hrs
    exact rebuildKeydir_run hfits hf
  have hread : ∀ keydir disk', (rebuildKeydir ⟨name⟩).run (fileSystem names) disk =
      (.ok keydir, disk') →
      ∃ rs, Writes names name rs content := by
    intro keydir disk' hrun
    obtain ⟨-, rs, hfits, hcontent, -⟩ := rebuildKeydir_ok hf hrun
    exact ⟨rs, writes_iff.mpr ⟨hfits, hcontent⟩⟩
  refine ⟨⟨?_, ?_⟩, ?_, ?_, ?_⟩
  · rintro ⟨keydir, hrun⟩
    exact hread keydir disk hrun
  · rintro ⟨rs, hrs⟩
    exact ⟨_, haccept rs hrs⟩
  · intro rs hrs
    refine ⟨?_, logIndex rs, haccept rs hrs, fun _ _ => logIndex_iff, ?_⟩
    · intro rs' hrs'
      obtain ⟨hfits, hcontent⟩ := writes_iff.mp hrs
      obtain ⟨hfits', hcontent'⟩ := writes_iff.mp hrs'
      exact encodeLog_injective hfits' hfits (hcontent'.symm.trans hcontent)
    · intro key position value hlast
      obtain ⟨hfits, rfl⟩ := writes_iff.mp hrs
      exact readLogValue_run names hf (hlast.holdsAt hfits)
  · intro hnone
    have hdisk := rebuildKeydir_disk names ⟨name⟩ disk
    rcases hrun : (rebuildKeydir ⟨name⟩).run (fileSystem names) disk with ⟨e | keydir, disk'⟩
    · rw [hrun] at hdisk
      exact ⟨e, by rw [← hdisk]⟩
    · exact absurd (hread keydir disk' hrun) hnone
  · intro rounds hrounds
    rw [rebuildKeydir_eq names hf]
    obtain ⟨more, rfl⟩ := Nat.exists_eq_add_of_le hrounds
    induction more with
    | zero => rfl
    | succ more ih =>
      rw [← ih (by omega), ← Nat.add_assoc, rebuildLoop_rounds _ (by omega)]

def mixedLog : List Record := [⟨[107], some [1, 2]⟩, ⟨[108], none⟩, ⟨[], some []⟩]

theorem log_reader_exact_mixed :
    (∃ keydir, (rebuildKeydir ⟨[100]⟩).run (fileSystem .longest)
      ⟨.insert .empty [100] (encodeLog mixedLog), []⟩ =
        (.ok keydir, ⟨.insert .empty [100] (encodeLog mixedLog), []⟩) ∧
      keydir.find? [] = some ⟨20, 8⟩) ∧
    (DiskLog.readLogValue ⟨[100]⟩ ⟨0, 11⟩).run (fileSystem .longest)
      ⟨.insert .empty [100] (encodeLog mixedLog), []⟩ =
        (.ok [1, 2], ⟨.insert .empty [100] (encodeLog mixedLog), []⟩) := by
  have hfits : ∀ r ∈ mixedLog, r.Fits := by
    simp [mixedLog, Record.Fits, Record.size, diskLogHeaderSize, maxDiskLogValueSize,
      maxDiskLogEntrySize]
  have hfind : (⟨.insert .empty [100] (encodeLog mixedLog), []⟩ : Disk).files.find? [100] =
      some (encodeLog mixedLog) := by
    simp [OrderedMap.find?_insert]
  obtain ⟨-, hreads, -⟩ := log_reader_exact .longest hfind
  obtain ⟨-, keydir, hrun, hindex, hvalue⟩ := hreads mixedLog (writes_iff.mpr ⟨hfits, rfl⟩)
  refine ⟨⟨keydir, hrun, (hindex _ _).mpr ⟨[], ?_⟩⟩, hvalue [107] _ _ ?_⟩
  · exact ⟨[⟨[107], some [1, 2]⟩, ⟨[108], none⟩], [], rfl, by simp, by decide⟩
  · exact ⟨[], [⟨[108], none⟩, ⟨[], some []⟩], rfl, by simp, by decide⟩

end SpaceDB.Proofs
