import SpaceDB.Proofs.DiskRefinement
import SpaceDB.Storage.Memory

namespace SpaceDB.Proofs
open Lib Storage

variable {names : TempNames} {disk disk' : Disk} {name : Path} {d : DiskEngine} {M : Store}

/-- The walk over the hash map does not matter once the entries are sorted. -/
theorem memory_scan (walk : Walks (Bytes × Slice)) (me : MemoryEngine) (start stop : Slice)
    (reverse : Bool) : me.scan walk start stop reverse =
      if reverse then (Store.scan me.data start stop).reverse
      else Store.scan me.data start stop := by
  have hrange : (fun e : Bytes × Slice =>
      !(start.any (fun s => decide (e.1 < s)) || stop.any (fun s => decide (s ≤ e.1)))) =
      fun e => OrderedMap.inRange start stop e.1 := by
    funext e
    rw [Bool.eq_iff_iff]
    cases start <;> cases stop <;> simp [OrderedMap.inRange, not_lt, not_le]
  simp only [MemoryEngine.scan, hrange, walk.sort_between, Store.scan]
  cases reverse <;> simp

/-- The memory engine is the ordered engine that keeps nil values, whatever
order its map is walked in. -/
theorem memoryEngine_simulates (walk : Walks (Bytes × Slice)) :
    Simulates (memoryEngine walk) (orderedEngine .kept) (fun me M => me.data = M) := by
  intro c me M hM
  subst hM
  cases c with
  | get key =>
    refine ⟨?_, rfl⟩
    simp only [memoryEngine, orderedEngine, MemoryEngine.get]
    cases me.data.find? key <;> rfl
  | set key value => exact ⟨rfl, rfl⟩
  | delete key => exact ⟨rfl, rfl⟩
  | _ =>
    refine ⟨?_, rfl⟩
    apply (memory_scan walk me _ _ _).trans
    rfl

/-- Within the limits the disk engine is the ordered engine that reads nil
values back as empty ones. -/
theorem limited_answers {calls : List EngineCall}
    (hfits : ∀ c ∈ calls, ∀ r, recordOf c = some r → r.Fits) (M : Store) :
    answers limitedEngine calls M = answers (orderedEngine .emptied) calls M := by
  induction calls generalizing M with
  | nil => rfl
  | cons c calls ih =>
    have hc : limitedEngine c M = orderedEngine .emptied c M := by
      have hr := hfits c List.mem_cons_self
      cases c with
      | set key value =>
        have hcheck := (checkEntrySize_iff _).mpr (hr _ rfl)
        simp only [limitedEngine]
        simp only [Option.getD_some, Option.isNone_some] at hcheck
        rw [hcheck]
      | delete key =>
        have hcheck := (checkEntrySize_iff _).mpr (hr _ rfl)
        simp only [limitedEngine]
        simp only [Option.getD_none, Option.isNone_none] at hcheck
        rw [hcheck]
      | _ => rfl
    rw [answers, answers, hc, ih (fun c' h' => hfits c' (List.mem_cons_of_mem _ h'))]

def content (v : Slice) : Slice := some (v.getD [])

/-- An answer with the values of its entries compared by their bytes. That Get
returns nil for an absent key is part of its answer. -/
def observed : (c : EngineCall) × EngineRet c → (c : EngineCall) × EngineRet c
  | ⟨.scan start stop, es⟩ => ⟨.scan start stop, es.map (·.map fun e => ⟨e.key, content e.value⟩)⟩
  | ⟨.scanReverse start stop, es⟩ =>
    ⟨.scanReverse start stop, es.map (·.map fun e => ⟨e.key, content e.value⟩)⟩
  | ⟨.scanPrefix start, es⟩ => ⟨.scanPrefix start, es.map (·.map fun e => ⟨e.key, content e.value⟩)⟩
  | ⟨.scanPrefixReverse start, es⟩ =>
    ⟨.scanPrefixReverse start, es.map (·.map fun e => ⟨e.key, content e.value⟩)⟩
  | answer => answer

def leftAt (key : Bytes) (v : Option Slice) : List EngineCall → Option Slice
  | [] => v
  | .set k value :: calls => leftAt key (if k = key then some value else v) calls
  | .delete k :: calls => leftAt key (if k = key then none else v) calls
  | _ :: calls => leftAt key v calls

theorem scan_content (M : Store) (start stop : Slice) :
    (Store.scan (M.mapValues content) start stop).map (·.map fun e => ⟨e.key, content e.value⟩) =
      (Store.scan M start stop).map (·.map fun e => (⟨e.key, content e.value⟩ : Entry)) := by
  simp only [Store.scan, OrderedMap.between_mapValues, List.map_map]
  rfl

theorem engine_next (c : EngineCall) (M : Store) :
    (orderedEngine .emptied c (M.mapValues content)).2 =
      (orderedEngine .kept c M).2.mapValues content := by
  cases c with
  | set key value => exact (OrderedMap.mapValues_insert content M key value).symm
  | delete key => exact (OrderedMap.mapValues_erase content M key).symm
  | _ => rfl

/-- The two engines differ in one answer only: to Get of a present nil value. -/
theorem answer_agrees_iff (c : EngineCall) (M : Store) :
    observed ⟨c, (orderedEngine .kept c M).1⟩ =
        observed ⟨c, (orderedEngine .emptied c (M.mapValues content)).1⟩ ↔
      ∀ key, c = .get key → M.find? key ≠ some none := by
  cases c with
  | get key =>
    simp only [observed, orderedEngine, OrderedMap.find?_mapValues, EngineCall.get.injEq,
      forall_eq']
    cases hf : M.find? key with
    | none => simp
    | some v => cases v <;> simp [content]
  | set key value => simp [observed, orderedEngine]
  | delete key => simp [observed, orderedEngine]
  | scan start stop => simp [observed, orderedEngine, scan_content]
  | scanReverse start stop => simp [observed, orderedEngine, scan_content]
  | scanPrefix start => simp [observed, orderedEngine, scan_content]
  | scanPrefixReverse start => simp [observed, orderedEngine, scan_content]

theorem leftAt_cons (key : Bytes) (c : EngineCall) (M : Store) (calls : List EngineCall) :
    leftAt key (M.find? key) (c :: calls) =
      leftAt key ((orderedEngine .kept c M).2.find? key) calls := by
  cases c with
  | set k value =>
    simp only [leftAt, orderedEngine, OrderedMap.find?_insert, eq_comm (a := key), NilValue.store]
  | delete k => simp only [leftAt, orderedEngine, OrderedMap.find?_erase, eq_comm (a := key)]
  | _ => rfl

/-- The two ways to keep nil differ exactly where a Get asks for a nil value. -/
theorem answers_agree_iff (calls : List EngineCall) (M : Store) :
    (answers (orderedEngine .kept) calls M).map observed =
        (answers (orderedEngine .emptied) calls (M.mapValues content)).map observed ↔
      ∀ before key after, calls = before ++ .get key :: after →
        leftAt key (M.find? key) before ≠ some none := by
  induction calls generalizing M with
  | nil => simp [answers]
  | cons c calls ih =>
    rw [answers, answers, List.map_cons, List.map_cons, List.cons.injEq, answer_agrees_iff,
      engine_next, ih]
    constructor
    · intro h before key after heq
      cases before with
      | nil =>
        cases heq
        exact h.1 key rfl
      | cons c' before =>
        obtain ⟨rfl, rfl⟩ := List.cons.inj heq
        rw [leftAt_cons]
        exact h.2 before key after rfl
    · intro h
      refine ⟨?_, ?_⟩
      · intro key hc
        subst hc
        exact h [] key calls rfl
      · intro before key after heq
        subst heq
        rw [← leftAt_cons]
        exact h (c :: before) key after rfl

/-- A fresh memory engine and a fresh disk engine answer a sequence of calls
alike, exactly when no Get in it asks for a key whose last Set or Delete was a
Set of nil. -/
theorem engines_agree_iff {calls : List EngineCall} (walk : Walks (Bytes × Slice))
    (hopen : (newDiskEngine name).run (fileSystem names) disk = (.ok d, disk'))
    (hfresh : (disk.files.find? name).getD [] = [])
    (hfits : ∀ c ∈ calls, ∀ r, recordOf c = some r → r.Fits) :
    (answers (memoryEngine walk) calls newMemoryEngine).map observed =
        (answers (diskEngine names) calls ⟨disk', some d⟩).map observed ↔
      ∀ before key after, calls = before ++ .get key :: after →
      leftAt key none before ≠ some none := by
  obtain ⟨rs, hf, hholds⟩ := opened_holds hopen
  obtain rfl := encodeLog_eq_nil (hf.symm.trans hfresh)
  rw [(memoryEngine_simulates walk).answers calls (t := .empty) rfl,
    (diskEngine_simulates names name).answers calls hholds, limited_answers hfits]
  exact answers_agree_iff calls .empty

theorem engines_agree_iff_overwritten :
    (answers (memoryEngine (.same _)) [.set [1] none, .scan none none, .set [1] (some []), .get [1]]
        newMemoryEngine).map observed =
      (answers (diskEngine .longest) [.set [1] none, .scan none none, .set [1] (some []), .get [1]]
        freshWorld).map observed := by
  refine (engines_agree_iff (.same _) fresh_open rfl ?_).mpr ?_
  · intro c hc r hr
    simp only [List.mem_cons, List.not_mem_nil, or_false] at hc
    rcases hc with rfl | rfl | rfl | rfl <;> cases hr <;> exact ⟨by decide, by decide⟩
  · intro before key after heq
    rcases before with _ | ⟨_, _ | ⟨_, _ | ⟨_, _ | ⟨_, before⟩⟩⟩⟩
    · cases heq
    · cases heq
    · cases heq
    · cases heq
      decide
    · simp at heq

/-- After a Set of nil the key is absent from the memory engine and present,
with an empty value, in the disk engine. -/
theorem set_nil_told_apart :
    answers (memoryEngine (.same _)) [.set [1] none, .get [1]] newMemoryEngine =
        [⟨.set [1] none, .ok ()⟩, ⟨.get [1], .ok none⟩] ∧
      answers (diskEngine .longest) [.set [1] none, .get [1]] freshWorld =
        [⟨.set [1] none, .ok ()⟩, ⟨.get [1], .ok (some [])⟩] := by
  obtain ⟨rs, hf, hholds⟩ := opened_holds fresh_open
  obtain rfl := encodeLog_eq_nil hf.symm
  exact ⟨rfl, (diskEngine_simulates .longest [100]).answers _ hholds⟩

end SpaceDB.Proofs
