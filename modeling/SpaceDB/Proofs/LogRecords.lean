import SpaceDB.Lib.Slice
import SpaceDB.Storage.Disk

namespace SpaceDB.Proofs
open Lib Storage

variable {names : TempNames} {d : Disk} {name : Path} {content : Bytes}

/-- A record of the log; one without a value is a tombstone. -/
structure Record where
  key : Bytes
  value : Option Bytes

namespace Record

def bytes (r : Record) : Bytes := entryBytes r.key (r.value.getD []) r.value.isNone

def size (r : Record) : Nat := diskLogHeaderSize + r.key.length + (r.value.getD []).length

def Fits (r : Record) : Prop :=
  (r.value.getD []).length ≤ maxDiskLogValueSize ∧ r.size ≤ maxDiskLogEntrySize

def valueSize (r : Record) : Int := r.value.elim diskLogTombstoneSize fun v => v.length

theorem bytes_eq (r : Record) : r.bytes =
    (putUint 4 r.key.length ++ putUint 4 (uint32 r.valueSize)) ++ (r.key ++ r.value.getD []) := by
  obtain ⟨key, value⟩ := r
  cases value <;> simp [bytes, entryBytes, valueSize]

@[simp] theorem bytes_length (r : Record) : r.bytes.length = r.size := by
  rw [bytes_eq, size]
  simp [diskLogHeaderSize]
  omega

theorem size_pos (r : Record) : 0 < r.size := by
  rw [size, diskLogHeaderSize]
  omega

theorem Fits.key_lt {r : Record} (h : r.Fits) : r.key.length < 256 ^ 4 := by
  have := h.2
  simp only [size, maxDiskLogEntrySize, diskLogHeaderSize] at this
  omega

theorem Fits.value_lt {r : Record} (h : r.Fits) : (r.value.getD []).length < 2 ^ 31 := by
  have := h.1
  simp only [maxDiskLogValueSize] at this
  omega

end Record

/-- The sizes are those of a record that fits. -/
theorem checkEntrySize_iff (r : Record) :
    checkEntrySize r.key (r.value.getD []) r.value.isNone = .ok () ↔ r.Fits := by
  obtain ⟨key, value⟩ := r
  have hstored : (if value.isNone = true then 0 else (value.getD []).length) =
      (value.getD []).length := by cases value <;> simp
  simp only [checkEntrySize, Record.Fits, Record.size, hstored]
  split_ifs with h1 h2
  · simp only [false_iff, not_and]
    omega
  · simp only [false_iff, not_and]
    omega
  · simp only [true_iff]
    omega

theorem int32_uint32 {x : Int} (h1 : -2 ^ 31 ≤ x) (h2 : x < 2 ^ 31) : int32 (uint32 x) = x := by
  unfold int32 uint32
  split_ifs with h <;> omega

/-- The value size survives the header. -/
theorem Record.Fits.decode_valueSize {r : Record} (hr : r.Fits) :
    int32 (uint (putUint 4 (uint32 r.valueSize))) = r.valueSize := by
  have hv := hr.value_lt
  have hbounds : -2 ^ 31 ≤ r.valueSize ∧ r.valueSize < 2 ^ 31 := by
    obtain ⟨key, value⟩ := r
    cases value with
    | none => simp [Record.valueSize, diskLogTombstoneSize]
    | some v =>
      simp only [Record.valueSize, Option.elim_some, Option.getD_some] at hv ⊢
      omega
  rw [uint_putUint_of_lt, int32_uint32 hbounds.1 hbounds.2]
  unfold uint32
  omega

/-- A record says where it ends: no record is the beginning of another one. -/
theorem Record.bytes_inj {r r' : Record} (hr : r.Fits) (hr' : r'.Fits) {a b : Bytes}
    (h : r.bytes ++ a = r'.bytes ++ b) : r = r' := by
  simp only [Record.bytes_eq, List.append_assoc] at h
  obtain ⟨hkeySize, h⟩ := List.append_inj h (by simp)
  obtain ⟨hvalueSize, h⟩ := List.append_inj h (by simp)
  have hlen := congrArg uint hkeySize
  rw [uint_putUint_of_lt hr.key_lt, uint_putUint_of_lt hr'.key_lt] at hlen
  have hsize := congrArg (fun bytes => int32 (uint bytes)) hvalueSize
  simp only [hr.decode_valueSize, hr'.decode_valueSize] at hsize
  obtain ⟨hkey, h⟩ := List.append_inj h hlen
  obtain ⟨key, value⟩ := r
  obtain ⟨key', value'⟩ := r'
  simp only at hkey
  subst hkey
  cases value with
  | none =>
    cases value' with
    | none => rfl
    | some v' =>
      simp only [valueSize, Option.elim_none, Option.elim_some, diskLogTombstoneSize] at hsize
      omega
  | some v =>
    cases value' with
    | none =>
      simp only [valueSize, Option.elim_none, Option.elim_some, diskLogTombstoneSize] at hsize
      omega
    | some v' =>
      simp only [valueSize, Option.elim_some, Nat.cast_inj] at hsize
      have hv : v = v' := (List.append_inj h hsize).1
      rw [hv]

theorem readBytes_slice {offset : Nat} {part : Bytes} (h : SliceAt content offset part) :
    readBytes content offset part.length = .ok part := by
  unfold readBytes
  split_ifs with h0 hle
  · rw [List.length_eq_zero_iff.mp h0]
  · rw [h.take_drop]
  · exact absurd h.le hle

theorem run_readAt (hf : d.files.find? name = some content) (offset size : Nat) :
    fileSystem names (.readAt name offset size) d = (readBytes content offset size, d) := by
  simp [fileSystem, hf]

/-- `readEntry` reads the header and the key of the record at the offset. -/
theorem readEntry_run (names : TempNames) {offset : Nat} {r : Record}
    (hf : d.files.find? name = some content)
    (hr : r.Fits) (h : SliceAt content offset r.bytes) :
    (DiskLog.readEntry ⟨name⟩ offset).run (fileSystem names) d = (.ok (r.key, r.valueSize), d) := by
  rw [Record.bytes_eq] at h
  have hheader := readBytes_slice h.left
  have hkey := readBytes_slice h.right.left
  rw [List.length_append, putUint_length, putUint_length] at hheader hkey
  simp only [DiskLog.readEntry, Prog.perform, Prog.bind_eq, Prog.bind_call, Prog.bind_done,
    Prog.run_call, run_readAt hf, diskLogHeaderSize, hheader, Prog.check_ok,
    List.take_left' (putUint_length 4 _), List.drop_left' (putUint_length 4 _),
    uint_putUint_of_lt hr.key_lt, hkey, hr.decode_valueSize, Prog.pure_eq, Prog.run_done]

structure HoldsAt (content : Bytes) (position : LogPosition) (key value : Bytes) : Prop where
  fits : (Record.mk key (some value)).Fits
  slice : SliceAt content position.entryOffset (Record.mk key (some value)).bytes
  size : position.entrySize = (Record.mk key (some value)).size

theorem HoldsAt.append {position : LogPosition} {key value : Bytes}
    (h : HoldsAt content position key value) (more : Bytes) :
    HoldsAt (content ++ more) position key value := ⟨h.fits, h.slice.append more, h.size⟩

/-- A value is read from where its record stands. -/
theorem readLogValue_run (names : TempNames) {position : LogPosition} {key value : Bytes}
    (hf : d.files.find? name = some content) (h : HoldsAt content position key value) :
    (DiskLog.readLogValue ⟨name⟩ position).run (fileSystem names) d = (.ok value, d) := by
  have hslice := h.slice
  rw [Record.bytes_eq] at hslice
  have hvalue := readBytes_slice hslice.right.right
  rw [List.length_append, putUint_length, putUint_length] at hvalue
  have hsize := h.size
  simp only [Record.size, Option.getD_some] at hsize hvalue
  have hread := readEntry_run names hf h.fits h.slice
  rw [DiskLog.readLogValue, Prog.bind_eq, Prog.run_bind_ok _ hread]
  dsimp only [Record.valueSize, Option.elim_some]
  split_ifs with hneg hne
  · omega
  · simp [hsize] at hne
  · simp only [DiskLog.readValue, Prog.perform, Prog.bind_eq, Prog.bind_call, Prog.bind_done,
      Prog.run_call, run_readAt hf, Int.toNat_natCast, diskLogHeaderSize, hvalue, Prog.check_ok,
      Prog.run_done]

/-- A successful append. -/
theorem writeEntry_run (names : TempNames) {r : Record}
    (hf : d.files.find? name = some content) (hr : r.Fits) :
    (DiskLog.writeEntry ⟨name⟩ r.key (r.value.getD []) r.value.isNone).run (fileSystem names) d =
      (.ok ⟨content.length, r.size⟩,
        { d with files := d.files.insert name (content ++ r.bytes) }) := by
  have hstored : (if r.value.isNone = true then 0 else (r.value.getD []).length) =
      (r.value.getD []).length := by cases r.value <;> simp
  simp only [DiskLog.writeEntry, (checkEntrySize_iff r).mpr hr, Prog.ofExcept_ok, Prog.perform,
    Prog.bind_eq, Prog.bind_call, Prog.bind_done, Prog.run_call, fileSystem, hf, Option.map_some,
    Option.elim_some, Prog.check_ok, Prog.pure_eq, Prog.run_done, hstored]
  rfl

/-- A record that does not fit is not written. -/
theorem writeEntry_oversized {r : Record} {e : Error} (hd : DiskLog)
    (hr : checkEntrySize r.key (r.value.getD []) r.value.isNone = .error e) :
    hd.writeEntry r.key (r.value.getD []) r.value.isNone = .fail e := by
  simp [DiskLog.writeEntry, hr]

end SpaceDB.Proofs
