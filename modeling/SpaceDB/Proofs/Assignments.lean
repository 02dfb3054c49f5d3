import SpaceDB.Proofs.Executions

namespace SpaceDB.Proofs
open Lib Storage Sql

variable {table : Table} {assignments : OrderedMap Bytes Expression} {row : Row}

/-- The value that a SET list gives the column at place `i`. Of the columns of
one name it means the first. -/
def assignedValue (table : Table) (assignments : OrderedMap Bytes Expression)
    (i : Nat) : Option Value :=
  (table.columns[i]?).bind fun c =>
    if table.columns.findIdx? (fun d => decide (d.name = c.name)) = some i then
      (assignments.find? c.name).bind fun e => (valueFromExpression e).toOption
    else none

def replaceAssigned (table : Table) (assignments : OrderedMap Bytes Expression) (row : Row) : Row :=
  row.mapIdx fun i v => (assignedValue table assignments i).getD v

def keyColumn (table : Table) : Option Nat := table.columns.findIdx? Column.primaryKey

/-- The last assignment to a place counts. -/
theorem foldl_set_get (row : Row) (as : List (Nat × Value)) (j : Nat) :
    (as.foldl (fun r a => r.set a.1 a.2) row)[j]? =
      row[j]?.map fun old =>
        ((as.reverse.find? (fun a => decide (a.1 = j))).map Prod.snd).getD old := by
  induction as using List.reverseRecOn with
  | nil => simp
  | append_singleton as a ih =>
    rw [List.foldl_append, List.foldl_cons, List.foldl_nil, List.getElem?_set', ih,
      List.reverse_append,
      List.reverse_singleton, List.singleton_append, List.find?_cons]
    by_cases hj : a.1 = j
    · subst hj
      cases row[a.1]? <;> simp
    · simp [hj]

theorem assign_foldlM {as : List (Nat × Value)} (h : ∀ a ∈ as, a.1 < row.length) :
    as.foldlM (fun row a => assign row a.1 a.2) row =
    .ok (as.foldl (fun r a => r.set a.1 a.2) row) := by
  induction as generalizing row with
  | nil => rfl
  | cons a as ih =>
    obtain ⟨ha, hrest⟩ := List.forall_mem_cons.mp h
    rw [List.foldlM_cons, assign_eq ha]
    exact ih (by simpa using hrest)

theorem columnIndex_ok {column : Bytes} {index : Nat} (h : table.columnIndex column = .ok index) :
    table.columns.findIdx? (fun c => decide (c.name = column)) = some index := by
  unfold Table.columnIndex at h
  split at h
  next k hk =>
    cases h
    exact hk
  · cases h

theorem resolveAssignment_ok {name : Bytes} {e : Expression} {a : Nat × Value}
    (h : resolveAssignment table (name, e) = .ok a) :
    table.columns.findIdx? (fun d => decide (d.name = name)) = some a.1 ∧
    valueFromExpression e = .ok a.2 := by
  obtain ⟨i, hi, h⟩ := outcome_bind_ok h
  obtain ⟨v, hv, h⟩ := outcome_bind_ok h
  cases h
  exact ⟨columnIndex_ok (outcome_wrap_ok hi), outcome_wrap_ok hv⟩

/-- A resolved assignment is the value of its place. -/
theorem assignedValue_eq {name : Bytes} {e : Expression} {a : Nat × Value}
    (hentry : (name, e) ∈ assignments.entries) (h : resolveAssignment table (name, e) = .ok a) :
    assignedValue table assignments a.1 = some a.2 := by
  obtain ⟨hindex, hvalue⟩ := resolveAssignment_ok h
  obtain ⟨hlt, hname, -⟩ := List.findIdx?_eq_some_iff_getElem.mp hindex
  have hcolumn : table.columns[a.1].name = name := of_decide_eq_true hname
  unfold assignedValue
  rw [List.getElem?_eq_getElem hlt, Option.bind_some, hcolumn, if_pos hindex,
    OrderedMap.find?_eq_some.mpr hentry, Option.bind_some, hvalue]
  rfl

section Resolved
variable {entries : List (Bytes × Expression)} {as : List (Nat × Value)}

/-- The order in which the assignments are walked over does not matter. -/
theorem resolved_find (hwalk : entries.Perm assignments.entries)
    (h : entries.mapM (resolveAssignment table) = .ok as) (j : Nat) :
    (as.reverse.find? (fun a => decide (a.1 = j))).map Prod.snd =
    assignedValue table assignments j := by
  cases hfind : as.reverse.find? (fun a => decide (a.1 = j)) with
  | some a =>
    obtain rfl : a.1 = j := by simpa using List.find?_some hfind
    obtain ⟨entry, hentry, hresolved⟩ :=
      mem_of_mapM_ok h (List.mem_reverse.mp (List.mem_of_find?_eq_some hfind))
    exact (assignedValue_eq (hwalk.mem_iff.mp hentry) hresolved).symm
  | none =>
    have hnone := List.find?_eq_none.mp hfind
    symm
    rw [Option.map_none, Option.eq_none_iff_forall_ne_some]
    intro v hv
    obtain ⟨c, -, hv⟩ := Option.bind_eq_some_iff.mp hv
    split_ifs at hv with hfirst
    obtain ⟨e, he, -⟩ := Option.bind_eq_some_iff.mp hv
    obtain ⟨a, ha, hresolved⟩ := mapM_ok_mem h (hwalk.mem_iff.mpr (OrderedMap.find?_eq_some.mp he))
    have hindex := (resolveAssignment_ok hresolved).1
    rw [hfirst, Option.some.injEq] at hindex
    exact hnone a (List.mem_reverse.mpr ha) (by simp [hindex])

/-- In whatever order the assignments are made, they make this row. -/
theorem resolved_foldlM (hwalk : entries.Perm assignments.entries)
    (h : entries.mapM (resolveAssignment table) = .ok as)
    (hrow : row.length = table.columns.length) :
    as.foldlM (fun row a => assign row a.1 a.2) row =
    .ok (replaceAssigned table assignments row) := by
  rw [assign_foldlM]
  · congr 1
    apply List.ext_getElem?
    intro j
    rw [foldl_set_get, resolved_find hwalk h, replaceAssigned, List.getElem?_mapIdx]
  · intro a ha
    obtain ⟨entry, -, hresolved⟩ := mem_of_mapM_ok h ha
    rw [hrow]
    exact (List.findIdx?_eq_some_iff_getElem.mp (resolveAssignment_ok hresolved).1).1

end Resolved

theorem primaryKeyFrom_eq {columns : List Column} {i k : Nat}
    (h : columns.findIdx? Column.primaryKey = some k) :
    table.primaryKeyFrom row i columns = index row (i + k) := by
  induction columns generalizing i k with
  | nil => cases h
  | cons column columns ih =>
    rw [List.findIdx?_cons] at h
    unfold Table.primaryKeyFrom
    split_ifs at h ⊢ with hkey
    · cases h
      rfl
    · obtain ⟨j, hj, rfl⟩ := Option.map_eq_some_iff.mp h
      rw [ih hj, Nat.add_assoc, Nat.add_comm 1]

theorem primaryKeyFrom_none {columns : List Column} {i : Nat}
    (h : columns.findIdx? Column.primaryKey = none) (v : Value) :
    table.primaryKeyFrom row i columns ≠ .ok v := by
  induction columns generalizing i with
  | nil => exact nofun
  | cons column columns ih =>
    rw [List.findIdx?_cons] at h
    unfold Table.primaryKeyFrom
    split_ifs at h ⊢ with hkey
    exact ih (Option.map_eq_none_iff.mp h)

/-- The primary key of a row is its value in the key column. -/
theorem primaryKeyValue_iff {v : Value} : table.primaryKeyValue row = .ok v ↔
    row.length = table.columns.length ∧ ∃ i, keyColumn table = some i ∧ row[i]? = some v := by
  unfold Table.primaryKeyValue keyColumn
  by_cases hlength : row.length = table.columns.length
  · rw [if_neg (not_not.mpr hlength)]
    cases hkey : table.columns.findIdx? Column.primaryKey with
    | none => simp [primaryKeyFrom_none hkey]
    | some i =>
      rw [primaryKeyFrom_eq hkey, Nat.zero_add]
      unfold index
      cases hi : row[i]? <;> simp [hlength, hi]
  · rw [if_pos hlength]
    exact iff_of_false nofun (fun h => hlength h.1)

theorem primaryKeyValue_mem {v : Value} (h : table.primaryKeyValue row = .ok v) : v ∈ row := by
  obtain ⟨-, i, -, hi⟩ := primaryKeyValue_iff.mp h
  exact List.mem_of_getElem? hi

/-- An assigned value is that of a literal. -/
theorem assignedValue_plain {i : Nat} {v : Value} (h : ∀ a ∈ assignments.entries, Operand a.2)
    (hv : assignedValue table assignments i = some v) : Plain v := by
  obtain ⟨c, -, hv⟩ := Option.bind_eq_some_iff.mp hv
  split_ifs at hv
  obtain ⟨e, he, hv⟩ := Option.bind_eq_some_iff.mp hv
  have hvalue := ordinary_value (h _ (OrderedMap.find?_eq_some.mp he))
  cases hresult : valueFromExpression e with
  | ok u =>
    rw [hresult] at hv hvalue
    cases hv
    exact hvalue
  | error f =>
    rw [hresult] at hv
    cases hv

theorem replaceAssigned_plain (h : ∀ a ∈ assignments.entries, Operand a.2)
    (hrow : ∀ v ∈ row, Plain v) :
    ∀ v ∈ replaceAssigned table assignments row, Plain v := by
  intro v hv
  obtain ⟨i, hi, rfl⟩ := List.mem_mapIdx.mp hv
  cases hassigned : assignedValue table assignments i with
  | none => exact hrow _ (List.getElem_mem hi)
  | some u => exact assignedValue_plain h hassigned

/-- When the SET list gives the primary key a value, it is that of the new row. -/
theorem primaryKeyValue_replaceAssigned {i : Nat} {v : Value} (hkey : keyColumn table = some i)
    (hv : assignedValue table assignments i = some v) (hrow : row.length = table.columns.length) :
    table.primaryKeyValue (replaceAssigned table assignments row) = .ok v := by
  have hi : i < row.length := hrow ▸ (List.findIdx?_eq_some_iff_getElem.mp hkey).1
  refine primaryKeyValue_iff.mpr ⟨by simp [replaceAssigned, hrow], i, hkey, ?_⟩
  rw [replaceAssigned, List.getElem?_mapIdx, List.getElem?_eq_getElem hi, hv]
  rfl

end SpaceDB.Proofs
