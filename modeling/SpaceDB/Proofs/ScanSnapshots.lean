import SpaceDB.Proofs.DiskRefinement
import SpaceDB.Storage.DiskScan

namespace SpaceDB.Proofs
open Lib Storage

variable {names : TempNames} {disk disk' : Disk} {name : Path} {content : Bytes} {d : DiskEngine}
  {M : Store} {rs : List Record} {w : DiskWorld}

def held (M : Store) (start stop : Slice) (reverse : Bool) : List (Except Error Entry) :=
  if reverse then (Store.scan M start stop).reverse else Store.scan M start stop

theorem ItemOf.append {item : Bytes × LogPosition} {entry : Bytes × Slice}
    (h : ItemOf content item entry)
    (more : Bytes) : ItemOf (content ++ more) item entry := by
  obtain ⟨hkey, v, hv, hat⟩ := h
  exact ⟨hkey, v, hv, hat.append more⟩

/-- A position of the index is read as the entry it stood for. -/
theorem readScanItem_run (names : TempNames) {item : Bytes × LogPosition} {entry : Bytes × Slice}
    (hlog : d.log = ⟨name⟩) (hf : disk.files.find? name = some content)
    (h : ItemOf content item entry) :
    (d.readScanItem item).run (fileSystem names) disk = (.ok ⟨entry.1, entry.2⟩, disk) := by
  obtain ⟨hkey, v, hv, hat⟩ := h
  have hread := readLogValue_run names hf hat
  rw [DiskEngine.readScanItem, hlog, Prog.bind_eq, Prog.run_bind, Prog.run_mapError,
    hread, ← hkey, hv]
  rfl

/-- Whatever is called on the engine, its log only grows. -/
theorem Logged.replay (names : TempNames) (h : Logged name w rs) (calls : List EngineCall) :
    ∃ more, Logged name (Prog.replay (diskEngine names) calls w) (rs ++ more) := by
  induction calls generalizing w rs with
  | nil => exact ⟨[], by simpa using h⟩
  | cons c calls ih =>
    obtain ⟨more, hnext, -⟩ := diskEngine_step names h c
    obtain ⟨more', hlast⟩ := ih hnext
    exact ⟨more ++ more', by simpa using hlast⟩

/-- The positions of the snapshot stay valid while the log grows, so that the
loop yields what they stood for until nobody wants more. -/
theorem yieldItems_spec (names : TempNames) (company : Company) {items : List (Bytes × LogPosition)}
    {entries : List (Bytes × Slice)} (h : List.Forall₂ (ItemOf (encodeLog rs)) items entries)
    (hlogged : Logged name w rs) (yielded : List (Except Error Entry)) :
    (yieldItems names company items yielded w).1 <+: yielded ++
    entries.map (fun e => .ok ⟨e.1, e.2⟩) ∧
      ((∀ yielded, company.goesOn yielded = true) →
        (yieldItems names company items yielded w).1 =
          yielded ++ entries.map (fun e => .ok ⟨e.1, e.2⟩)) := by
  induction items generalizing entries rs w yielded with
  | nil =>
    cases h
    simp [yieldItems]
  | cons item items ih =>
    cases h with
    | @cons _ entry _ entries hitem hrest =>
      obtain ⟨more, hgrown⟩ := hlogged.replay names (company.calls yielded)
      have hread := readScanItem_run names (d := ⟨logIndex (rs ++ more), ⟨name⟩, lockPath name⟩) rfl
        hgrown.file (by rw [encodeLog_append]; exact hitem.append _)
      have hrest' : List.Forall₂ (ItemOf (encodeLog (rs ++ more))) items entries := by
        rw [encodeLog_append]
        exact hrest.imp (fun _ _ hitem => hitem.append _)
      have hnext := ih hrest' hgrown (yielded ++ [.ok ⟨entry.1, entry.2⟩])
      rw [List.append_assoc, List.singleton_append] at hnext
      simp only [yieldItems, hgrown.engine, hread, List.map_cons]
      split_ifs with hgo
      · rw [← hgrown.engine]
        exact hnext
      · exact ⟨⟨entries.map fun e => .ok ⟨e.1, e.2⟩, by simp⟩, fun hall => absurd (hall _) hgo⟩

/-- A scan yields what was there when it began, as far as its body goes. -/
theorem Logged.scanInCompany (company : Company) (h : Logged name w rs) (start stop : Slice)
    (reverse : Bool) :
    (scanInCompany names company start stop reverse w).1 <+: held (contents rs) start stop reverse ∧
      ((∀ yielded, company.goesOn yielded = true) →
        (scanInCompany names company start stop reverse w).1 =
        held (contents rs) start stop reverse) := by
  have hitems := (located_log h.fits).between start stop
  simp only [Storage.scanInCompany, h.engine, snapshotRange_eq, held]
  cases reverse with
  | false => exact yieldItems_spec names company hitems h []
  | true =>
    have hyields := yieldItems_spec names company (List.forall₂_reverse_iff.mpr hitems) h []
    rw [List.map_reverse] at hyields
    exact hyields

/-- Every state of an open engine holds a map from keys to values. Whatever is
called on the engine while a scan runs, the scan yields the entries the map held
in the range when it began, in order: all of them, or the first ones where its
loop is left early. -/
theorem scan_is_snapshot
    (hopen : (newDiskEngine name).run (fileSystem names) disk = (.ok d, disk')) (ops : List DiskOp)
    (hw : w = Prog.replay (diskSession names name) ops ⟨disk', some d⟩) :
    ∃ M : Store, (∀ key, M.find? key ≠ some none ∧
        (diskEngine names (.get key) w).1 = .ok (M.find? key).join) ∧
      ∀ company start stop reverse,
        (scanInCompany names company start stop reverse w).1 <+: held M start stop reverse ∧
        ((∀ yielded, company.goesOn yielded = true) →
          (scanInCompany names company start stop reverse w).1 = held M start stop reverse) := by
  obtain ⟨rs₀, -, hholds⟩ := opened_holds hopen
  have hnow := (diskSession_simulates names name).replay ops hholds
  rw [← hw] at hnow
  have hget := fun key => (diskEngine_simulates names name (.get key) w _ hnow).1
  obtain ⟨rs, hfits, hf, hengine, hM⟩ := hnow
  refine ⟨contents rs, fun key => ⟨?_, ?_⟩, fun company start stop reverse => ?_⟩
  · exact (Logged.mk hfits hf hengine).holds.no_nil key
  · rw [hget key, hM]
    rfl
  · exact (Logged.mk hfits hf hengine).scanInCompany company start stop reverse

/-- Before anything is read, key 2 is overwritten and key 3 is set; after the
first entry, key 2 is deleted. -/
def rewriting : Company where
  calls yielded :=
    if yielded = [] then [.set [2] (some [9]), .set [3] (some [9])] else [.delete [2]]
  goesOn _ := true

theorem scan_is_snapshot_rewriting : ∃ M : Store, M.find? [2] = some (some [8]) ∧
    M.find? [3] = none ∧
    (scanInCompany .longest rewriting (some [2]) none false
      (Prog.replay (diskSession .longest [100])
      [.call (.set [1] (some [7])), .call (.set [2] (some [8]))] freshWorld)).1 =
        held M (some [2]) none false := by
  obtain ⟨M, hmap, hscan⟩ := scan_is_snapshot fresh_open
    [.call (.set [1] (some [7])), .call (.set [2] (some [8]))] rfl
  have hkept :
      ∀ key answer, (diskEngine .longest (.get key) (Prog.replay (diskSession .longest [100])
      [.call (.set [1] (some [7])), .call (.set [2] (some [8]))] freshWorld)).1 = .ok answer →
      M.find? key = answer.map some := by
    intro key answer hanswer
    have hget := (hmap key).2.symm.trans hanswer
    cases hfind : M.find? key with
    | none =>
      rw [hfind] at hget
      cases hget
      rfl
    | some slot =>
      cases slot with
      | none => exact absurd hfind (hmap key).1
      | some v =>
        rw [hfind] at hget
        cases hget
        rfl
  refine ⟨M, hkept [2] (some [8]) (by rfl), hkept [3] none (by rfl), ?_⟩
  exact (hscan rewriting (some [2]) none false).2 (fun _ => rfl)

end SpaceDB.Proofs
