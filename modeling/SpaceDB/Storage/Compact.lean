import SpaceDB.Storage.Disk

namespace SpaceDB.Storage
open Lib

def rewriteLoop (log tempLog : DiskLog) :
    List (Bytes × LogPosition) → Keydir → FileProg Error Keydir
  | [], newKeydir => .done newKeydir
  | (key, position) :: items, newKeydir => do
    let value ← (log.readLogValue position).mapError
      (.wrap "storage: reading key %q: %w" [.bytes key])
    let newPosition ← (tempLog.writeEntry key value false).mapError
      (.wrap "storage: rewriting key %q: %w" [.bytes key])
    rewriteLoop log tempLog items (newKeydir.insert key newPosition)

def compactStart (name : Path) : Path := name ++ [46, 99, 111, 109, 112, 97, 99, 116, 45]

def backupPath (tempPath : Path) : Path := tempPath ++ [46, 111, 108, 100]

def Error.joined (e : Error) (e' : Option Error) : Error := e'.elim e (.join e)

/-- Puts the backup in the place of whatever is there. -/
def DiskEngine.restoreOriginal (d : DiskEngine) (tempPath : Path) :
    FileProg ε (DiskEngine × Option Error) := do
  let removed ← .perform (.remove d.log.file)
  let removeErr := (errorOf removed).filter (fun e => decide (e ≠ notExist))
  match (← .perform (.rename (backupPath tempPath) d.log.file) : Except Error Unit) with
  | .error e => return (d, joinErrors removeErr (some e))
  | .ok _ => match ← (newDisLog d.log.file).attempt with
    | .ok reopened => return ({ d with log := reopened }, removeErr)
    | .error e => return (d, joinErrors removeErr (some e))

/-- The part of `compact` that changes files: the original moves away, the new
log takes its place. An error comes with the engine as it is left. -/
def DiskEngine.install (d : DiskEngine) (tempPath : Path) (newKeydir : Keydir) :
    FileProg (DiskEngine × Error) DiskEngine := do
  match (← .perform (.rename d.log.file (backupPath tempPath)) : Except Error Unit) with
  | .error e =>
    let err := Error.wrap "storage: backing up original log: %w" [] e
    match ← (newDisLog d.log.file).attempt with
    | .ok reopened => .fail ({ d with log := reopened }, err)
    | .error e' => .fail (d, .join err e')
  | .ok _ => match (← .perform (.rename tempPath d.log.file) : Except Error Unit) with
    | .error e => do
      let (d, restoreErr) ← d.restoreOriginal tempPath
      .fail (d, (Error.wrap "storage: installing compact log: %w" [] e).joined restoreErr)
    | .ok _ => match ← (newDisLog d.log.file).attempt with
      | .error e => do
        let (d, restoreErr) ← d.restoreOriginal tempPath
        .fail (d, (Error.wrap "storage: reopening compact log: %w" [] e).joined restoreErr)
      | .ok replacement => do
        let d := { d with log := replacement, keydir := newKeydir }
        .check (fun e => (d, .wrap "storage: removing compact backup: %w" [] e))
          (← .perform (.remove (backupPath tempPath)))
        return d

/-- The part of `compact` that fills the temporary file and closes both files. -/
def DiskEngine.rewrite (d : DiskEngine) (tempPath : Path) :
    FileProg (DiskEngine × Error) Keydir := do
  let newKeydir ← (rewriteLoop d.log ⟨tempPath⟩ d.keydir.entries .empty).mapError (fun e => (d, e))
  .check (fun e => (d, .wrap "storage: syncing compact log: %w" [] e))
    (← .perform (.sync tempPath))
  .check (fun e => (d, .wrap "storage: closing compact log: %w" [] e))
    (← .perform (.close tempPath))
  .check (fun e => (d, .wrap "storage: closing original log before compaction: %w" [] e))
    (← .perform (.close d.log.file))
  return newKeydir

/-- The body of `compact` once the temporary file is there. -/
def DiskEngine.compactInto (d : DiskEngine) (tempPath : Path) :
    FileProg (DiskEngine × Error) DiskEngine := do
  d.install tempPath (← d.rewrite tempPath)

def DiskEngine.compact (d : DiskEngine) : FileProg (DiskEngine × Error) DiskEngine := do
  let tempPath ← .check (fun e => (d, .wrap "storage: creating compact log: %w" [] e))
    (← .perform (.createTemp (compactStart d.log.file)))
  let result ← (d.compactInto tempPath).attempt
  -- the deferred calls, whose errors are dropped
  let _ ← .perform (.close tempPath)
  let _ ← .perform (.remove tempPath)
  .ofExcept result

def newDiskEngineCompact (name : Path) : FileProg Error DiskEngine := do
  let e ← newDiskEngine name
  match ← e.compact.attempt with
  | .ok e => return e
  | .error (e, err) =>
    let closeErr ← e.close
    .fail (err.joined closeErr)

structure DiskWorld where
  disk : Disk
  engine : Option DiskEngine

/-- The methods of the Engine interface on an open engine, with the engine as
they leave it. -/
def DiskEngine.perform (d : DiskEngine) :
    (c : EngineCall) → FileProg Empty (EngineRet c × DiskEngine)
  | .set key value => do
    match ← (d.set key (value.getD [])).attempt with
    | .ok d => return (.ok (), d)
    | .error e => return (.error e, d)
  | .get key => do return (← (d.get key).attempt, d)
  | .delete key => do
    match ← (d.delete key).attempt with
    | .ok d => return (.ok (), d)
    | .error e => return (.error e, d)
  | .scan start stop => do return (← d.scan start stop false, d)
  | .scanReverse start stop => do return (← d.scan start stop true, d)
  | .scanPrefix start => do return (← d.scan (some start) (prefixEnd start) false, d)
  | .scanPrefixReverse start => do return (← d.scan (some start) (prefixEnd start) true, d)

def closedAnswer : (c : EngineCall) → EngineRet c
  | .set _ _ | .get _ | .delete _ => .error errDiskEngineClosed
  | .scan _ _ | .scanReverse _ _ | .scanPrefix _ | .scanPrefixReverse _ =>
    [.error errDiskEngineClosed]

def value : Except Empty α → α
  | .ok a => a
  | .error e => e.elim

/-- The engine as the file system answers it. -/
def diskEngine (names : TempNames) : Handler EngineCall EngineRet DiskWorld
  | c, w =>
    match w.engine with
    | none => (closedAnswer c, w)
    | some d =>
      let r := (d.perform c).run (fileSystem names) w.disk
      ((value r.1).1, ⟨r.2, some (value r.1).2⟩)

/-- A call, or `Close` followed by opening the same path again. -/
inductive DiskOp where
  | call (c : EngineCall)
  | reopen
  | reopenCompact

@[reducible] def DiskRet : DiskOp → Type
  | .call c => EngineRet c
  | .reopen | .reopenCompact => Except Error Unit

/-- `Close`, then one of the two constructors. -/
def reopenWith (names : TempNames) (new : FileProg Error DiskEngine) (w : DiskWorld) :
    Except Error Unit × DiskWorld :=
  let closed := match w.engine with
    | none => (none, w.disk)
    | some d =>
      let r := (d.close : FileProg Empty _).run (fileSystem names) w.disk
      (value r.1, r.2)
  match closed.1 with
  | some e => (.error e, ⟨closed.2, none⟩)
  | none =>
    let r := new.run (fileSystem names) closed.2
    (r.1.map (fun _ => ()), ⟨r.2, r.1.toOption⟩)

def diskSession (names : TempNames) (name : Path) : Handler DiskOp DiskRet DiskWorld
  | .call c, w => diskEngine names c w
  | .reopen, w => reopenWith names (newDiskEngine name) w
  | .reopenCompact, w => reopenWith names (newDiskEngineCompact name) w

end SpaceDB.Storage
