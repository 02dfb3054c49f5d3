import SpaceDB.Storage.Engine

namespace SpaceDB.Storage
open Lib

/-- The map of a memory engine, with the number of walks over it so far. -/
structure MemoryEngine where
  data : Store
  walks : Nat

def newMemoryEngine : MemoryEngine := ⟨.empty, 0⟩

namespace MemoryEngine

def set (me : MemoryEngine) (key : Bytes) (value : Slice) : MemoryEngine :=
  { me with data := me.data.insert key value }

/-- A present nil value is read as nil, like an absent key. -/
def get (me : MemoryEngine) (key : Bytes) : Slice :=
  match me.data.find? key with
  | none => none
  | some v => v

def delete (me : MemoryEngine) (key : Bytes) : MemoryEngine :=
  { me with data := me.data.erase key }

def scan (walk : Walks (Bytes × Slice)) (me : MemoryEngine) (start stop : Slice) (reverse : Bool) :
    List (Except Error Entry) :=
  let entries := (walk.order me.walks me.data.entries).filter fun e =>
    !(start.any (fun s => decide (e.1 < s)) || stop.any (fun s => decide (s ≤ e.1)))
  let entries := entries.insertionSort (fun a b => a.1 ≤ b.1)
  (if reverse then entries.reverse else entries).map (fun e => .ok ⟨e.1, e.2⟩)

end MemoryEngine

/-- The loop of `prefixEnd`, which goes back over the first `i` bytes of its copy
of the prefix: it skips bytes 0xff, and what follows the byte it increments is
cut off. -/
def prefixEndLoop (copy : Bytes) : Nat → Slice
  | 0 => none
  | i + 1 =>
    match copy[i]? with
    | some b =>
      if b = 255 then prefixEndLoop copy i else some ((copy.set i (b + 1)).take (i + 1))
    | none => none

def memoryEngine (walk : Walks (Bytes × Slice)) : Handler EngineCall EngineRet MemoryEngine
  | .set key value, me => (.ok (), me.set key value)
  | .get key, me => (.ok (me.get key), me)
  | .delete key, me => (.ok (), me.delete key)
  | .scan start stop, me => (me.scan walk start stop false, { me with walks := me.walks + 1 })
  | .scanReverse start stop, me => (me.scan walk start stop true, { me with walks := me.walks + 1 })
  | .scanPrefix start, me =>
    (me.scan walk (some start) (prefixEnd start) false, { me with walks := me.walks + 1 })
  | .scanPrefixReverse start, me =>
    (me.scan walk (some start) (prefixEnd start) true, { me with walks := me.walks + 1 })

end SpaceDB.Storage
