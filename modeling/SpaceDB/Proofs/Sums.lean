import SpaceDB.Lib.FloatIntegers
import SpaceDB.Proofs.GroupBy

namespace SpaceDB.Proofs
open Lib Storage Sql Float64

def columnIntegers (columnIndex : Nat) (rows : List Row) : List Int :=
  rows.filterMap fun (row : Row) =>
    match row[columnIndex]? with
    | some (.integer n) => some n.val
    | _ => none

def IntegerColumn (columnIndex : Nat) (rows : List Row) : Prop :=
  ∀ row ∈ rows, row[columnIndex]? = some .null ∨ ∃ n, row[columnIndex]? = some (.integer n)

/-- Every number, and the sum of `total` and all numbers before it, is a float. -/
def Unrounded : Int → List Int → Prop
  | _, [] => True
  | total, n :: ns => Representable total ∧ Representable n ∧ Unrounded (total + n) ns

/-- Nothing is rounded away as long as the absolute values stay small together. -/
theorem unrounded_small {total : Int} {ns : List Int}
    (h : total.natAbs + (ns.map Int.natAbs).sum ≤ 2 ^ 53) : Unrounded total ns := by
  induction ns generalizing total with
  | nil => exact trivial
  | cons n ns ih =>
    simp only [List.map_cons, List.sum_cons] at h
    refine ⟨representable_small (by omega), representable_small (by omega), ih ?_⟩
    have := Int.natAbs_add_le total n
    omega

section Sums
variable {columnName : Bytes} {columns : List Bytes} {columnIndex : Nat} {rows rows' : List Row}

theorem IntegerColumn.perm (h : IntegerColumn columnIndex rows) (hperm : rows'.Perm rows) :
    IntegerColumn columnIndex rows' := fun row hrow => h row (hperm.subset hrow)

theorem columnIntegers_perm (hperm : rows'.Perm rows) :
    (columnIntegers columnIndex rows').Perm (columnIntegers columnIndex rows) :=
  hperm.filterMap _

/-- As long as no sum so far is rounded, the loop is at the conversion of the
exact one. -/
theorem sumLoop_eq {total : Int} {sum : Option Float64} (i : Nat)
    (hrows : IntegerColumn columnIndex rows) (hsum : sum.getD (.ofMagnitude false 0) = ofInt total)
    (h : Unrounded total (columnIntegers columnIndex rows)) :
    sumLoop columnName columnIndex i sum rows =
    .ok (if columnIntegers columnIndex rows = [] then sum
      else some (ofInt (total + (columnIntegers columnIndex rows).sum))) := by
  induction rows generalizing total sum i with
  | nil => rfl
  | cons row rows ih =>
    obtain ⟨hrow, hrest⟩ := List.forall_mem_cons.mp hrows
    rcases hrow with hnull | ⟨n, hn⟩
    · have hints : columnIntegers columnIndex (row :: rows) = columnIntegers columnIndex rows := by
        simp [columnIntegers, hnull]
      rw [hints] at h ⊢
      rw [sumLoop, index_eq hnull]
      exact ih (i + 1) hrest hsum h
    · have hints : columnIntegers columnIndex (row :: rows) =
          n.val :: columnIntegers columnIndex rows := by
        simp [columnIntegers, hn]
      rw [hints] at h ⊢
      obtain ⟨htotal, hvalue, hnext⟩ := h
      have hadd : (sum.getD (.ofMagnitude false 0)).add (ofInt n.val) = ofInt (total + n.val) := by
        rw [hsum, add_ofInt htotal hvalue]
      rw [sumLoop, index_eq hn]
      change sumLoop columnName columnIndex (i + 1)
        (some ((sum.getD (.ofMagnitude false 0)).add (ofInt n.val))) rows = _
      rw [hadd, ih (i + 1) hrest rfl hnext, if_neg (List.cons_ne_nil _ _)]
      cases hns : columnIntegers columnIndex rows with
      | nil => simp
      | cons m ms => simp [Int.add_assoc]

/-- SUM as long as no partial sum is rounded. -/
theorem sumCalculator_eq (hcolumn : columnIndexOf columns columnName = some columnIndex)
    (hrows : IntegerColumn columnIndex rows) (hsome : columnIntegers columnIndex rows ≠ [])
    (h : Unrounded 0 (columnIntegers columnIndex rows)) :
    sumCalculator columnName columns rows =
      .ok (.float (ofInt (columnIntegers columnIndex rows).sum)) := by
  have hloop : sumLoop columnName columnIndex 0 none rows = _ :=
    sumLoop_eq 0 hrows ofInt_zero.symm h
  rw [if_neg hsome, Int.zero_add] at hloop
  unfold sumCalculator aggregateColumn
  rw [hcolumn]
  change (sumLoop columnName columnIndex 0 none rows >>= _) = _
  rw [hloop]
  rfl

/-- SUM returns the exact sum of the integers of a column when no value and no
sum of the values before one has to be rounded. So it is the same in every
order of the rows for which that holds, and in all orders when the absolute
values add up to at most `2 ^ 53`. -/
theorem sum_exact (hcolumn : columnIndexOf columns columnName = some columnIndex)
    (hrows : IntegerColumn columnIndex rows) (hsome : columnIntegers columnIndex rows ≠ [])
    (hsum : Representable (columnIntegers columnIndex rows).sum)
    (h : Unrounded 0 (columnIntegers columnIndex rows)) :
    (∃ f, sumCalculator columnName columns rows = .ok (.float f) ∧
        f.Is (columnIntegers columnIndex rows).sum) ∧
      ∀ rows', rows'.Perm rows → Unrounded 0 (columnIntegers columnIndex rows') ∨
          ((columnIntegers columnIndex rows).map Int.natAbs).sum ≤ 2 ^ 53 →
        sumCalculator columnName columns rows' = sumCalculator columnName columns rows := by
  have hexact := sumCalculator_eq hcolumn hrows hsome h
  refine ⟨⟨_, hexact, hsum.is_ofInt⟩, ?_⟩
  intro rows' hperm hcase
  have hints : (columnIntegers columnIndex rows').Perm (columnIntegers columnIndex rows) :=
    columnIntegers_perm hperm
  have hunrounded : Unrounded 0 (columnIntegers columnIndex rows') := by
    refine hcase.elim id (fun hsmall => unrounded_small ?_)
    rw [(hints.map Int.natAbs).sum_eq]
    simpa using hsmall
  have hsome' : columnIntegers columnIndex rows' ≠ [] := by
    intro hnil
    rw [hnil] at hints
    exact hsome hints.symm.eq_nil
  rw [hexact, sumCalculator_eq hcolumn (hrows.perm hperm) hsome' hunrounded, hints.sum_eq]

theorem sum_exact_null :
    ∃ f, sumCalculator [120] [[120]]
      [[.integer ⟨10, by decide⟩], [.null], [.integer ⟨-3, by decide⟩]] =
      .ok (.float f) ∧ f.Is 7 := by
  have hints : columnIntegers 0 [[.integer ⟨10, by decide⟩], [.null], [.integer ⟨-3, by decide⟩]] =
      [10, -3] := by rfl
  have hexact := @sum_exact [120] [[120]] 0
    [[.integer ⟨10, by decide⟩], [.null], [.integer ⟨-3, by decide⟩]] (by decide)
    (by simp [IntegerColumn]) (by simp [hints])
    (by rw [hints]; exact representable_small (by decide))
    (by rw [hints]; exact unrounded_small (by decide))
  rw [hints] at hexact
  exact hexact.1

end Sums

/-- The sum 1 of three integers is lost in one order of the rows, where
`2 ^ 53 + 1` is rounded on the way, and not in another. -/
theorem sum_depends_on_order :
    sumCalculator [120] [[120]] [[.integer ⟨2 ^ 53, by decide⟩], [.integer ⟨1, by decide⟩],
        [.integer ⟨-2 ^ 53, by decide⟩]] = .ok (.float (ofInt 0)) ∧
      sumCalculator [120] [[120]] [[.integer ⟨2 ^ 53, by decide⟩], [.integer ⟨-2 ^ 53, by decide⟩],
        [.integer ⟨1, by decide⟩]] = .ok (.float (ofInt 1)) ∧
      (ofInt 1).Is (2 ^ 53 + 1 - 2 ^ 53) := by
  refine ⟨by decide +kernel, by decide +kernel, ?_⟩
  exact (representable_small (by decide)).is_ofInt

end SpaceDB.Proofs
