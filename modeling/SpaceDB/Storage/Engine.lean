import SpaceDB.Lib.Bytes
import SpaceDB.Lib.OrderedMap
import SpaceDB.Lib.Program

namespace SpaceDB.Storage
open Lib

/-- A Go byte slice where nil is told apart from empty. -/
abbrev Slice := Option Bytes

inductive Arg where
  | bytes (b : Bytes)
  | number (n : Int)
  deriving DecidableEq

/-- An error as its format text with the arguments given to it. `wrap` is a
`%w` around its cause, `join` is `errors.Join`. -/
inductive Error where
  | new (format : String) (args : List Arg)
  | wrap (format : String) (args : List Arg) (cause : Error)
  | join (first second : Error)
  deriving DecidableEq

structure Entry where
  key : Bytes
  value : Slice
  deriving DecidableEq

/-- The methods of the Engine interface. A nil bound of a scan is `none`. -/
inductive EngineCall where
  | set (key : Bytes) (value : Slice)
  | get (key : Bytes)
  | delete (key : Bytes)
  | scan (start stop : Slice)
  | scanReverse (start stop : Slice)
  | scanPrefix (start : Bytes)
  | scanPrefixReverse (start : Bytes)
  deriving DecidableEq

/-- A scan is the sequence its loop would receive, each item with its error. -/
@[reducible] def EngineRet : EngineCall → Type
  | .set _ _ | .delete _ => Except Error Unit
  | .get _ => Except Error Slice
  | .scan _ _ | .scanReverse _ _ | .scanPrefix _ | .scanPrefixReverse _ =>
    List (Except Error Entry)

abbrev EngineProg := Prog EngineCall EngineRet Error

/-- `prefixEnd`: the smallest byte string after every key with the given
prefix, missing when the prefix consists of 0xff bytes only. -/
def prefixEnd : Bytes → Slice
  | [] => none
  | b :: rest =>
    match prefixEnd rest with
    | some e => some (b :: e)
    | none => if b = 255 then none else some [b + 1]

/-- What an engine keeps of a nil value: the memory engine keeps nil, the disk
engine reads an empty value back. -/
inductive NilValue where
  | kept
  | emptied
  deriving DecidableEq

def NilValue.store : NilValue → Slice → Slice
  | .kept, v => v
  | .emptied, v => some (v.getD [])

@[simp] theorem NilValue.store_some (n : NilValue) (v : Bytes) : n.store (some v) = some v := by
  cases n <;> rfl

abbrev Store := OrderedMap Bytes Slice

def Store.scan (s : Store) (start stop : Slice) : List (Except Error Entry) :=
  (s.between start stop).map (fun e => .ok ⟨e.1, e.2⟩)

/-- A fault-free ordered engine. Both engines of the repository scan a prefix
as the range up to `prefixEnd` and differ only in the nil value. -/
def orderedEngine (n : NilValue) : Handler EngineCall EngineRet Store
  | .set key value, s => (.ok (), s.insert key (n.store value))
  | .get key, s => (.ok (s.find? key).join, s)
  | .delete key, s => (.ok (), s.erase key)
  | .scan start stop, s => (Store.scan s start stop, s)
  | .scanReverse start stop, s => ((Store.scan s start stop).reverse, s)
  | .scanPrefix start, s => (Store.scan s (some start) (prefixEnd start), s)
  | .scanPrefixReverse start, s => ((Store.scan s (some start) (prefixEnd start)).reverse, s)

/-- An ordered engine together with the number of Delete calls it has had. -/
structure Faulty where
  store : Store
  deletes : Nat

/-- An ordered engine whose Delete call number `i` fails with the error
`faults i`, if there is one, and then changes nothing. -/
def faultyEngine (n : NilValue) (faults : Nat → Option Error) :
    Handler EngineCall EngineRet Faulty
  | .delete key, s =>
    match faults s.deletes with
    | none => (.ok (), ⟨s.store.erase key, s.deletes + 1⟩)
    | some e => (.error e, ⟨s.store, s.deletes + 1⟩)
  | c, s => ((orderedEngine n c s.store).1, ⟨(orderedEngine n c s.store).2, s.deletes⟩)

end SpaceDB.Storage
