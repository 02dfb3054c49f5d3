import SpaceDB.Storage.Compact

namespace SpaceDB.Storage
open Lib

/-- `DiskEngine.readScanItem`; between two of its calls others use the engine. -/
def DiskEngine.readScanItem (d : DiskEngine) (item : Bytes × LogPosition) :
    FileProg Error Entry := do
  let value ← (d.log.readLogValue item.2).mapError
    (.wrap "storage: reading scanned key %q: %w" [.bytes item.1])
  return ⟨item.1, some value⟩

/-- The loop body over a scan together with all others that use the engine at
the same time, as far as they matter to the scan: what is called on the engine
after these entries have been yielded and before the next one is read, and
whether the body wants another one. -/
structure Company where
  calls : List (Except Error Entry) → List EngineCall
  goesOn : List (Except Error Entry) → Bool

/-- The loop of `scan` over its snapshot, after the entries it has yielded. -/
def yieldItems (names : TempNames) (company : Company) :
    List (Bytes × LogPosition) → List (Except Error Entry) → DiskWorld →
      List (Except Error Entry) × DiskWorld
  | [], yielded, w => (yielded, w)
  | item :: items, yielded, w =>
    let w := Prog.replay (diskEngine names) (company.calls yielded) w
    match w.engine with
    | none => (yielded ++ [.error errDiskEngineClosed], w)
    | some d =>
      match (d.readScanItem item).run (fileSystem names) w.disk with
      | (.error e, disk) => (yielded ++ [.error e], ⟨disk, w.engine⟩)
      | (.ok entry, disk) =>
        let yielded := yielded ++ [.ok entry]
        if company.goesOn yielded then yieldItems names company items yielded ⟨disk, w.engine⟩
        else (yielded, ⟨disk, w.engine⟩)

/-- `DiskEngine.scan`: the positions are copied once, at its beginning. -/
def scanInCompany (names : TempNames) (company : Company) (start stop : Slice) (reverse : Bool)
    (w : DiskWorld) : List (Except Error Entry) × DiskWorld :=
  match w.engine with
  | none => ([.error errDiskEngineClosed], w)
  | some d => yieldItems names company (d.snapshotRange start stop reverse) [] w

end SpaceDB.Storage
