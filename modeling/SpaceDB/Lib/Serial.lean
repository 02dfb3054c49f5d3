import SpaceDB.Lib.Bytes

namespace Lib

/-- A way to write values as bytes that finds their end without being told. -/
structure Serial (α : Type) where
  put : α → Bytes
  take : Bytes → Option (α × Bytes)
  take_put : ∀ a rest, take (put a ++ rest) = some (a, rest)

namespace Serial
variable {α β : Type}

def byte : Serial Byte where
  put b := [b]
  take
    | [] => none
    | b :: rest => some (b, rest)
  take_put _ _ := rfl

def uint64 : Serial (Fin (2 ^ 64)) where
  put x := putUint 8 x.val
  take bs := some (Fin.ofNat (2 ^ 64) (uint (bs.take 8)), bs.drop 8)
  take_put := by
    intro x rest
    have hlength : (putUint 8 x.val).length = 8 := putUint_length 8 x.val
    have hx : x.val < 256 ^ 8 := x.isLt
    rw [List.take_append_of_le_length (le_of_eq hlength.symm),
      List.take_of_length_le (le_of_eq hlength), uint_putUint_of_lt hx,
      List.drop_append_of_le_length (le_of_eq hlength.symm),
      List.drop_of_length_le (le_of_eq hlength), List.nil_append]
    simp only [Option.some.injEq, Prod.mk.injEq, and_true]
    exact Fin.ext (Nat.mod_eq_of_lt x.isLt)

def pair (a : Serial α) (b : Serial β) : Serial (α × β) where
  put x := a.put x.1 ++ b.put x.2
  take bs := (a.take bs).bind fun x => (b.take x.2).map fun y => ((x.1, y.1), y.2)
  take_put := by
    intro x rest
    simp [List.append_assoc, a.take_put, b.take_put]

def map (a : Serial α) (pack : α → β) (unpack : β → α) (h : ∀ b, pack (unpack b) = b) :
    Serial β where
  put b := a.put (unpack b)
  take bs := (a.take bs).map fun x => (pack x.1, x.2)
  take_put := by
    intro b rest
    simp [a.take_put, h]

/-- A byte before each element says that it is there. -/
def putList (a : Serial α) : List α → Bytes
  | [] => [0]
  | x :: xs => 1 :: (a.put x ++ putList a xs)

def takeList (a : Serial α) : Nat → Bytes → Option (List α × Bytes)
  | _, [] => none
  | 0, _ => none
  | fuel + 1, b :: rest =>
    if b = 0 then some ([], rest)
    else (a.take rest).bind fun x => (takeList a fuel x.2).map fun y => (x.1 :: y.1, y.2)

/-- A list is read back, whatever follows it. -/
theorem takeList_putList (a : Serial α) (xs : List α) (rest : Bytes) {fuel : Nat}
    (h : xs.length < fuel) : takeList a fuel (putList a xs ++ rest) = some (xs, rest) := by
  induction xs generalizing fuel with
  | nil =>
    cases fuel with
    | zero => exact absurd h (Nat.not_lt_zero _)
    | succ fuel => rfl
  | cons x xs ih =>
    cases fuel with
    | zero => exact absurd h (Nat.not_lt_zero _)
    | succ fuel =>
      simp [putList, takeList, a.take_put, ih (Nat.lt_of_succ_lt_succ h)]

theorem length_lt_putList (a : Serial α) (xs : List α) : xs.length < (putList a xs).length := by
  induction xs with
  | nil => exact Nat.zero_lt_one
  | cons x xs ih =>
    simp only [putList, List.length_cons, List.length_append]
    omega

def list (a : Serial α) : Serial (List α) where
  put := putList a
  take bs := takeList a bs.length bs
  take_put := by
    intro xs rest
    apply takeList_putList
    rw [List.length_append]
    have := length_lt_putList a xs
    omega

def bool : Serial Bool :=
  byte.map (fun b => decide (b ≠ 0)) (fun b => if b then 1 else 0) (by decide)

def option (a : Serial α) : Serial (Option α) :=
  a.list.map List.head? Option.toList (by intro o; cases o <;> rfl)

end Serial
end Lib
