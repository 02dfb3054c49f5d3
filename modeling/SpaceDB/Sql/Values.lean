import SpaceDB.Lib.Bytes
import SpaceDB.Lib.Float64
import SpaceDB.Storage.Engine

namespace SpaceDB.Sql
open Lib Storage

/-- How an operation ends that does not succeed: with an error it returns, or
with a panic that nothing recovers. -/
inductive Fault where
  | error (e : Error)
  | panic (message : String)
  deriving DecidableEq

/-- A `%w` around an error. A panic passes through it. -/
def Fault.wrap (format : String) (args : List Arg) : Fault → Fault
  | .error e => .error (.wrap format args e)
  | .panic message => .panic message

abbrev Outcome := Except Fault

def fault {α : Type} (format : String) (args : List Arg) : Outcome α :=
  .error (.error (.new format args))

def Outcome.wrap {α : Type} (format : String) (args : List Arg) (r : Outcome α) : Outcome α :=
  r.mapError (Fault.wrap format args)

def index {α : Type} (l : List α) (i : Nat) : Outcome α :=
  match l[i]? with
  | some a => .ok a
  | none => .error (.panic "index out of range")

def assign {α : Type} (l : List α) (i : Nat) (a : α) : Outcome (List α) :=
  if i < l.length then .ok (l.set i a) else .error (.panic "index out of range")

abbrev Int64 := { i : Int // -2 ^ 63 ≤ i ∧ i < 2 ^ 63 }

def Int64.wrap (i : Int) : Int64 := ⟨(i + 2 ^ 63) % 2 ^ 64 - 2 ^ 63, by omega, by omega⟩

inductive DataType where
  | boolean
  | integer
  | float
  | string
  deriving DecidableEq

def DataType.number : DataType → Nat
  | .boolean => 0
  | .integer => 1
  | .float => 2
  | .string => 3

/-- A value with the payload of its kind. -/
inductive Value where
  | null
  | boolean (b : Bool)
  | integer (i : Int64)
  | float (f : Float64)
  | string (s : Bytes)
  deriving DecidableEq

namespace Value

def kind : Value → Nat
  | .null => 0
  | .boolean _ => 1
  | .integer _ => 2
  | .float _ => 3
  | .string _ => 4

/-- The fields of the struct, as `%#v` prints them. -/
def args : Value → List Arg
  | .null => [.number 0]
  | .boolean b => [.number 1, .number b.toNat]
  | .integer i => [.number 2, .number i.val]
  | .float f => [.number 3, .number f.bits.val]
  | .string s => [.number 4, .bytes s]

def dataType : Value → Option DataType
  | .boolean _ => some .boolean
  | .integer _ => some .integer
  | .float _ => some .float
  | .string _ => some .string
  | .null => none

/-- Go's `==` on the struct, which compares floats as numbers. -/
def equal : Value → Value → Bool
  | .null, .null => true
  | .boolean a, .boolean b => decide (a = b)
  | .integer a, .integer b => decide (a = b)
  | .float a, .float b => a.eq b
  | .string a, .string b => decide (a = b)
  | _, _ => false

def compareFloats (a b : Float64) : Int := if a.lt b then -1 else if b.lt a then 1 else 0

def compare : Value → Value → Outcome Int
  | .null, .null => .ok 0
  | .null, _ => .ok (-1)
  | _, .null => .ok 1
  | .boolean a, .boolean b => .ok (if a = b then 0 else if !a then -1 else 1)
  | .integer a, .integer b => .ok (if a.val < b.val then -1 else if b.val < a.val then 1 else 0)
  | .float a, .float b => .ok (compareFloats a b)
  | .integer a, .float b => .ok (compareFloats (.ofInt a.val) b)
  | .float a, .integer b => .ok (compareFloats a (.ofInt b.val))
  | .string a, .string b => .ok (if a < b then -1 else if b < a then 1 else 0)
  | a, b => fault "types: cannot compare value kinds %d and %d" [.number a.kind, .number b.kind]

end Value

abbrev Row := List Value

end SpaceDB.Sql
