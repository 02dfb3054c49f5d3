import Mathlib.Data.Prod.Lex
import SpaceDB.Proofs.ExecutorRuns
import SpaceDB.Proofs.PrimaryKeys
import SpaceDB.Proofs.Queries

namespace SpaceDB.Proofs
open Lib Storage Sql Engine

/-- Where a value stands among those of its kind; NULL is first. -/
def valuePlace : Value → Nat ×ₗ Int ×ₗ Bytes
  | .null => toLex (0, toLex (0, []))
  | .boolean b => toLex (1, toLex (if b then 1 else 0, []))
  | .integer i => toLex (1, toLex (i.val, []))
  | .float f => toLex (1, toLex (f.rank, []))
  | .string s => toLex (1, toLex (0, s))

theorem threeWay_number (n : Nat) (x y : Int) (s : Bytes) :
    threeWay (toLex (n, toLex (x, s)) : Nat ×ₗ Int ×ₗ Bytes) (toLex (n, toLex (y, s))) =
    threeWay x y := by
  simp [threeWay, Prod.Lex.toLex_lt_toLex]

theorem threeWay_bytes (n : Nat) (x : Int) (s t : Bytes) :
    threeWay (toLex (n, toLex (x, s)) : Nat ×ₗ Int ×ₗ Bytes) (toLex (n, toLex (x, t))) =
    threeWay s t := by
  simp only [threeWay, Prod.Lex.toLex_lt_toLex, lt_irrefl, true_and, false_or]
  exact threeWay_eq

def OfKind (kind : Nat) (v : Value) : Prop := v = .null ∨ v.kind = kind ∧ IsNumber v

/-- Values of one kind are compared by their places. -/
theorem compare_place {kind : Nat} {a b : Value} (ha : OfKind kind a) (hb : OfKind kind b) :
    a.compare b = .ok (threeWay (valuePlace a) (valuePlace b)) := by
  rcases ha with rfl | ⟨rfl, ha⟩
  · cases b <;> simp [Value.compare, valuePlace, threeWay, Prod.Lex.toLex_lt_toLex]
  rcases hb with rfl | ⟨hkind, hb⟩
  · cases a <;> simp [Value.compare, valuePlace, threeWay, Prod.Lex.toLex_lt_toLex]
  cases a with
  | null =>
    cases b with
    | null => rfl
    | _ => cases hkind
  | boolean x =>
    cases b with
    | boolean y =>
      rw [valuePlace, valuePlace, threeWay_number]
      cases x <;> cases y <;> rfl
    | _ => cases hkind
  | integer i =>
    cases b with
    | integer j => rw [valuePlace, valuePlace, threeWay_number, Value.compare, threeWay_eq]
    | _ => cases hkind
  | float f =>
    cases b with
    | float g => rw [valuePlace, valuePlace, threeWay_number, Value.compare, compareFloats_eq ha hb]
    | _ => cases hkind
  | string x =>
    cases b with
    | string y => rw [valuePlace, valuePlace, threeWay_bytes, Value.compare, threeWay_eq]
    | _ => cases hkind

def columnValue (columns : List Bytes) (row : Row) (name : Bytes) : Value :=
  ((columnIndexOf columns name).bind (fun i => row[i]?)).getD .null

def columnCompare (columns : List Bytes) (order : OrderBy) (a b : Row) : Int :=
  match (columnValue columns a order.column).compare (columnValue columns b order.column) with
  | .ok c => if order.direction = .orderDescending then -c else c
  | .error _ => 0

def rowCompare (columns : List Bytes) : List OrderBy → Row → Row → Int
  | [], _, _ => 0
  | order :: orders, a, b =>
    if columnCompare columns order a b = 0 then rowCompare columns orders a b
    else columnCompare columns order a b

/-- In every column the values that are not NULL have one kind, and floats are
numbers. -/
def Homogeneous (rows : List Row) : Prop :=
  ∀ i : Nat, ∃ kind, ∀ row ∈ rows, ∀ v, row[i]? = some v → OfKind kind v

section Orders
variable {columns : List Bytes} {orders : List OrderBy} {keys : List (OrderBy × Nat)}
    {rows : List Row}

theorem columnValue_eq {row : Row} {name : Bytes} {i : Nat} {v : Value}
    (hi : columnIndexOf columns name = some i) (hv : row[i]? = some v) :
    columnValue columns row name = v := by
  unfold columnValue
  rw [hi, Option.bind_some, hv, Option.getD_some]

theorem columnValue_kind (columns : List Bytes) (h : Homogeneous rows) (name : Bytes) :
    ∃ kind, ∀ row ∈ rows, OfKind kind (columnValue columns row name) := by
  unfold columnValue
  cases columnIndexOf columns name with
  | none => exact ⟨0, fun _ _ => .inl rfl⟩
  | some i =>
    obtain ⟨kind, hkind⟩ := h i
    refine ⟨kind, fun row hrow => ?_⟩
    rw [Option.bind_some]
    cases hv : row[i]? with
    | none => exact .inl rfl
    | some v => exact hkind row hrow v hv

/-- One item orders the rows by the place of a value, or the other way round. -/
theorem columnCompare_weak (columns : List Bytes) (h : Homogeneous rows) (order : OrderBy) :
    WeakOrder (· ∈ rows) (columnCompare columns order) := by
  obtain ⟨kind, hkind⟩ := columnValue_kind columns h order.column
  have hplaces := weakOrder_threeWay (· ∈ rows)
    (fun row => valuePlace (columnValue columns row order.column))
  by_cases hdesc : order.direction = .orderDescending
  · apply hplaces.negate.congr
    intro a b ha hb
    rw [columnCompare, compare_place (hkind a ha) (hkind b hb)]
    exact if_pos hdesc
  · apply hplaces.congr
    intro a b ha hb
    rw [columnCompare, compare_place (hkind a ha) (hkind b hb)]
    exact if_neg hdesc

theorem rowCompare_weak (columns : List Bytes) (h : Homogeneous rows) (orders : List OrderBy) :
    WeakOrder (· ∈ rows) (rowCompare columns orders) := by
  induction orders with
  | nil => exact ⟨fun _ _ => Iff.rfl, fun _ _ _ _ _ => le_refl 0⟩
  | cons order orders ih => exact (columnCompare_weak columns h order).lex ih

/-- The columns of an ORDER BY are found. -/
theorem resolveOrder_mapM (h : ∀ o ∈ orders, o.column ∈ columns) :
    ∃ keys, orders.mapM (resolveOrder columns) = .ok keys ∧ keys.map Prod.fst = orders ∧
      ∀ k ∈ keys, columnIndexOf columns k.1.column = some k.2 := by
  induction orders with
  | nil => exact ⟨[], rfl, rfl, List.forall_mem_nil _⟩
  | cons order orders ih =>
    obtain ⟨hfirst, hrest⟩ := List.forall_mem_cons.mp h
    obtain ⟨keys, hkeys, hnames, hplaces⟩ := ih hrest
    obtain ⟨i, hi⟩ : ∃ i, columnIndexOf columns order.column = some i :=
      Option.isSome_iff_exists.mp (List.isSome_idxOf?.mpr hfirst)
    have hresolve : resolveOrder columns order = .ok (order, i) := by
      unfold resolveOrder
      rw [hi]
    refine ⟨(order, i) :: keys, ?_, ?_, ?_⟩
    · rw [List.mapM_cons, hresolve, hkeys]
      rfl
    · rw [List.map_cons, hnames]
    · exact List.forall_mem_cons.mpr ⟨hi, hplaces⟩

/-- The comparison of the executor never fails on such rows. -/
theorem compareRows_eq (h : Homogeneous rows) (hwide : Wide columns rows)
    (hkeys : ∀ k ∈ keys, columnIndexOf columns k.1.column = some k.2) {a b : Row} (ha : a ∈ rows)
    (hb : b ∈ rows) : compareRows keys a b = .ok (rowCompare columns (keys.map Prod.fst) a b) := by
  induction keys with
  | nil => rfl
  | cons key keys ih =>
    obtain ⟨order, i⟩ := key
    obtain ⟨hi, hkeys⟩ := List.forall_mem_cons.mp hkeys
    have hlt : i < columns.length := index_idxOf hi
    have hlta : i < a.length := by
      rw [hwide a ha]
      exact hlt
    have hltb : i < b.length := by
      rw [hwide b hb]
      exact hlt
    have hva : a[i]? = some a[i] := List.getElem?_eq_getElem hlta
    have hvb : b[i]? = some b[i] := List.getElem?_eq_getElem hltb
    obtain ⟨kind, hkind⟩ := h i
    have hcompare := compare_place (hkind a ha _ hva) (hkind b hb _ hvb)
    generalize threeWay (valuePlace a[i]) (valuePlace b[i]) = c at hcompare
    have hcolumn : columnCompare columns order a b =
        if order.direction = .orderDescending then -c else c := by
      rw [columnCompare, columnValue_eq hi hva, columnValue_eq hi hvb, hcompare]
    rw [compareRows, index_eq hva, index_eq hvb]
    change (a[i].compare b[i]).wrap _ _ >>= _ = _
    rw [hcompare, List.map_cons, rowCompare, hcolumn]
    change (if c = 0 then compareRows keys a b else _) = _
    by_cases hc : c = 0
    · rw [if_pos hc, ih hkeys, hc]
      simp
    · rw [if_neg hc]
      by_cases hdesc : order.direction = .orderDescending
      · simp [hdesc, hc, pure, Except.pure]
      · simp [hdesc, hc, pure, Except.pure]

/-- Where no comparison fails, the insertion is that of the library. -/
theorem insertRow_eq {cmp : Row → Row → Int}
    (hcmp : ∀ {a b}, a ∈ rows → b ∈ rows → compareRows keys a b = .ok (cmp a b)) {row : Row}
    {sorted : List Row} (hrow : row ∈ rows) (hsorted : ∀ r ∈ sorted, r ∈ rows) :
    insertRow keys row sorted = .ok (insertLast cmp row sorted) := by
  induction sorted with
  | nil => rfl
  | cons last sorted ih =>
    obtain ⟨hlast, hsorted⟩ := List.forall_mem_cons.mp hsorted
    rw [insertRow, hcmp hrow hlast, insertLast]
    change (if cmp row last < 0 then _ else _) = _
    by_cases hlt : cmp row last < 0
    · rw [if_pos hlt, if_pos hlt, ih hsorted]
      rfl
    · rw [if_neg hlt, if_neg hlt]
      rfl

/-- Where no comparison fails, the executor's sort is the insertion sort. -/
theorem sortRows_eq {cmp : Row → Row → Int}
    (hcmp : ∀ {a b}, a ∈ rows → b ∈ rows → compareRows keys a b = .ok (cmp a b)) :
    sortRows keys rows = .ok (insertionSortBy cmp rows) := by
  have hloop : ∀ {rest sorted : List Row}, (∀ r ∈ rest, r ∈ rows) → (∀ r ∈ sorted, r ∈ rows) →
      rest.foldlM (fun sorted row => insertRow keys row sorted) sorted =
        .ok (rest.foldl (fun sorted row => insertLast cmp row sorted) sorted) := by
    intro rest
    induction rest with
    | nil => exact fun _ _ => rfl
    | cons row rest ih =>
      intro sorted hrest hsorted
      obtain ⟨hrow, hrest⟩ := List.forall_mem_cons.mp hrest
      rw [List.foldlM_cons, insertRow_eq hcmp hrow hsorted]
      apply ih hrest
      intro r hr
      rcases List.mem_cons.mp ((insertLast_perm cmp row sorted).mem_iff.mp hr) with rfl | hr
      · exact hrow
      · exact hsorted r hr
  rw [sortRows, hloop (fun r hr => hr) (List.forall_mem_nil _)]
  rfl

/-- ORDER BY gives the stable sort of the source rows by the listed columns, and
there is only one. -/
theorem order_by_stable {σ : Type} {h : Handler TxnCall TxnRet σ} {s s' : σ} {walk : Walk}
    {source : Node} (hsource : (Sql.execute walk source).run h s = (.ok (.rows columns rows), s'))
    (hwide : Wide columns rows) (hkinds : Homogeneous rows)
    (horders : ∀ o ∈ orders, o.column ∈ columns) :
    WeakOrder (· ∈ rows) (rowCompare columns orders) ∧ ∃ sorted,
      (Sql.execute walk (.order source orders)).run h s = (.ok (.rows columns sorted), s') ∧
      StableSorted (rowCompare columns orders) rows sorted ∧
      ∀ other, StableSorted (rowCompare columns orders) rows other → other = sorted := by
  have hweak := rowCompare_weak columns hkinds orders
  have hstable := insertionSortBy_stable hweak (fun _ hr => hr)
  refine ⟨hweak, insertionSortBy (rowCompare columns orders) rows, ?_, hstable,
    fun other hother => hother.unique hweak (fun _ hr => hr) hstable⟩
  obtain ⟨keys, hkeys, hnames, hplaces⟩ := resolveOrder_mapM horders
  have hrows : orderRows orders columns rows =
      .ok (insertionSortBy (rowCompare columns orders) rows) := by
    rw [orderRows, hkeys]
    apply sortRows_eq
    intro a b ha hb
    rw [compareRows_eq hkinds hwide hplaces ha hb, hnames]
  rw [orderNode_run hsource, hrows]
  rfl

end Orders

def integerRow (values : List (Option Sql.Int64)) : Row := values.map fun v => v.elim .null .integer

theorem integerRow_kind {values : List (Option Sql.Int64)} {i : Nat} {v : Value}
    (hv : (integerRow values)[i]? = some v) : OfKind 2 v := by
  rw [integerRow, List.getElem?_map] at hv
  obtain ⟨w, -, rfl⟩ := Option.map_eq_some_iff.mp hv
  cases w with
  | none => exact .inl rfl
  | some i => exact .inr ⟨rfl, trivial⟩

def unsortedRows : List Row :=
  [integerRow [some (.wrap 2), some (.wrap 0)], integerRow [none, some (.wrap 1)],
    integerRow [some (.wrap 5), some (.wrap 2)],
    integerRow [some (.wrap 2), some (.wrap 3)]]

def unsortedTable : Table :=
  ⟨ascii "t", [⟨ascii "a", .integer, true, none, false⟩, ⟨ascii "n", .integer, false, none, true⟩]⟩

theorem order_by_stable_descending : ∃ sorted,
    (Sql.execute id (.order (.scan (ascii "t")) [⟨ascii "a", .orderDescending⟩])).run
      (fixedRows unsortedTable unsortedRows) () = (.ok (.rows [ascii "a", ascii "n"] sorted), ()) ∧
    StableSorted (rowCompare [ascii "a", ascii "n"] [⟨ascii "a", .orderDescending⟩])
      unsortedRows sorted := by
  have hkinds : Homogeneous unsortedRows := by
    refine fun i => ⟨2, fun row hrow v hv => ?_⟩
    simp only [unsortedRows, List.mem_cons, List.not_mem_nil, or_false] at hrow
    rcases hrow with rfl | rfl | rfl | rfl <;> exact integerRow_kind hv
  have hwide : Wide [ascii "a", ascii "n"] unsortedRows := by
    simp [Wide, unsortedRows, integerRow]
  have hsource : (Sql.execute id (.scan (ascii "t"))).run
      (fixedRows unsortedTable unsortedRows) () =
      (.ok (.rows [ascii "a", ascii "n"] unsortedRows), ()) := rfl
  have horders : ∀ o ∈ [(⟨ascii "a", .orderDescending⟩ : OrderBy)],
      o.column ∈ [ascii "a", ascii "n"] := by
    decide
  obtain ⟨-, sorted, hrun, hstable, -⟩ := order_by_stable hsource hwide hkinds horders
  exact ⟨sorted, hrun, hstable⟩

end SpaceDB.Proofs
