import SpaceDB.Proofs.Plans

namespace SpaceDB.Proofs
open Lib Storage Sql

def Wide (columns : List Bytes) (rows : List Row) : Prop :=
  ∀ row ∈ rows, row.length = columns.length

theorem Wide.subset {columns : List Bytes} {rows rows' : List Row} (h : Wide columns rows)
    (hsub : ∀ row ∈ rows', row ∈ rows) : Wide columns rows' := fun row hrow => h row (hsub row hrow)

theorem evaluate_operand {e : Expression} (he : Operand e) {columns rightColumns : List Bytes}
    {row rightRow : Row} (hrow : row.length = columns.length) :
    Ordinary (fun _ => True) (evaluateExpression e columns row rightColumns rightRow) := by
  cases he with
  | @column name hname =>
    cases hi : columnIndexOf columns name with
    | none =>
      rw [evaluate_missing hi]
      exact ordinary_fault _ _
    | some i =>
      rw [evaluate_found hi]
      exact (ordinary_index (hrow ▸ index_idxOf hi)).mono (fun _ _ => trivial)
  | _ => exact trivial

/-- A comparison indexes the rows it was resolved for. -/
theorem evaluate_comparison {e : Expression} (he : Comparison e) {columns rightColumns : List Bytes}
    {row rightRow : Row} (hrow : row.length = columns.length)
    (hright : rightRow.length = rightColumns.length) :
    Ordinary (fun _ => True) (evaluateExpression e columns row rightColumns rightRow) := by
  obtain ⟨kind, hfirst, hsecond⟩ := he
  refine (evaluate_operand hfirst hrow).wrap.bind (fun a _ => ?_)
  refine (evaluate_operand hsecond hright).wrap.bind (fun b _ => ?_)
  unfold evaluateComparison
  split_ifs
  · exact trivial
  · exact (ordinary_compare a b).wrap.bind (fun _ _ => trivial)

/-- A filter keeps some of the rows. -/
theorem filterRows_ordinary {predicate : Expression} (hp : Comparison predicate)
    {columns : List Bytes} {rows : List Row} (h : Wide columns rows) (i : Nat) :
    Ordinary (fun kept => ∀ row ∈ kept, row ∈ rows) (filterRows predicate columns i rows) := by
  induction rows generalizing i with
  | nil => exact List.forall_mem_nil _
  | cons row rows ih =>
    obtain ⟨hrow, hrows⟩ := List.forall_mem_cons.mp h
    refine (evaluate_comparison hp hrow hrow).wrap.bind (fun v _ => ?_)
    refine (ih hrows (i + 1)).bind (fun kept hkept => ?_)
    have htail : ∀ r ∈ kept, r ∈ row :: rows := fun r hr => List.mem_cons_of_mem _ (hkept r hr)
    change ∀ r ∈ (if v = .boolean true then row :: kept else kept), r ∈ row :: rows
    split_ifs
    · exact List.forall_mem_cons.mpr ⟨List.mem_cons_self, htail⟩
    · exact htail

theorem compareRows_ordinary {orders : List (OrderBy × Nat)} {n : Nat}
    (ho : ∀ o ∈ orders, o.2 < n) {a b : Row} (ha : a.length = n) (hb : b.length = n) :
    Ordinary (fun _ => True) (compareRows orders a b) := by
  induction orders with
  | nil => exact trivial
  | cons o orders ih =>
    obtain ⟨hi, hrest⟩ := List.forall_mem_cons.mp ho
    refine (ordinary_index (ha ▸ hi)).bind (fun x _ => ?_)
    refine (ordinary_index (hb ▸ hi)).bind (fun y _ => ?_)
    refine (ordinary_compare x y).wrap.bind (fun c _ => ?_)
    by_cases hc : c = 0
    · rw [if_pos hc]
      exact ih hrest
    · rw [if_neg hc]
      exact trivial

theorem insertRow_ordinary {orders : List (OrderBy × Nat)} {n : Nat}
    (ho : ∀ o ∈ orders, o.2 < n) {row : Row} (hrow : row.length = n) {rows : List Row}
    (h : ∀ r ∈ rows, r.length = n) :
    Ordinary (fun l => ∀ r ∈ l, r = row ∨ r ∈ rows) (insertRow orders row rows) := by
  induction rows with
  | nil => exact fun r hr => .inl (List.mem_singleton.mp hr)
  | cons last rows ih =>
    obtain ⟨hlast, hrows⟩ := List.forall_mem_cons.mp h
    refine (compareRows_ordinary ho hrow hlast).bind (fun c _ => ?_)
    split_ifs
    · refine (ih hrows).bind (fun l hl => ?_)
      refine List.forall_mem_cons.mpr ⟨.inr List.mem_cons_self, ?_⟩
      intro r hr
      exact (hl r hr).imp id (List.mem_cons_of_mem _)
    · exact List.forall_mem_cons.mpr ⟨.inl rfl, fun r hr => .inr hr⟩

/-- Sorting keeps the rows. -/
theorem orderRows_ordinary (orderBy : List OrderBy) {columns : List Bytes} {rows : List Row}
    (h : Wide columns rows) :
    Ordinary (fun sorted => ∀ row ∈ sorted, row ∈ rows) (orderRows orderBy columns rows) := by
  have hresolve : ∀ o ∈ orderBy,
      Ordinary (fun r => r.2 < columns.length) (resolveOrder columns o) := by
    intro o _
    unfold resolveOrder
    split
    · exact ordinary_fault _ _
    next i hi => exact index_idxOf hi
  refine (ordinary_mapM hresolve).bind (fun orders horders => ?_)
  have hfold : Ordinary (fun l => ∀ r ∈ l, r ∈ rows)
      (rows.foldlM (fun sorted row => insertRow orders row sorted) []) := by
    refine ordinary_foldlM (List.forall_mem_nil _) (fun sorted row hrow hsorted => ?_)
    refine (insertRow_ordinary horders.2 (h row hrow) (h.subset hsorted)).mono (fun l hl => ?_)
    intro r hr
    rcases hl r hr with rfl | hr
    · exact hrow
    · exact hsorted r hr
  exact hfold.bind (fun l hl r hr => hl r (List.mem_reverse.mp hr))

theorem offsetRows_ordinary {offset : Sql.Int64} (h : 0 ≤ offset.val) (rows : List Row) :
    Ordinary (fun l => ∀ row ∈ l, row ∈ rows) (offsetRows offset rows) := by
  unfold offsetRows
  simp only
  rw [if_neg (by omega)]
  exact fun row hrow => List.mem_of_mem_drop hrow

theorem limitRows_ordinary {limit : Sql.Int64} (h : 0 ≤ limit.val) (rows : List Row) :
    Ordinary (fun l => ∀ row ∈ l, row ∈ rows) (limitRows limit rows) := by
  unfold limitRows
  simp only
  rw [if_neg (by omega)]
  exact fun row hrow => List.mem_of_mem_take hrow

theorem resolveItem_ordinary {item : SelectItem} (h : Operand item.expression)
    (columns : List Bytes) :
    Ordinary (fun p => ∀ i, p.columnIndex = some i → i < columns.length)
      (resolveItem columns item) := by
  obtain ⟨e, aliasName⟩ := item
  cases h with
  | @column name hname =>
    cases hi : columnIndexOf columns name with
    | none =>
      rw [resolveItem_missing hi]
      exact ordinary_fault _ _
    | some i =>
      rw [resolveItem_found hi]
      intro j hj
      cases hj
      exact index_idxOf hi
  | function hname hargument => exact trivial
  | _ =>
    intro i hi
    cases hi

/-- A projection has rows as wide as its columns. -/
theorem projectRows_ordinary {items : List SelectItem}
    (hitems : ∀ item ∈ items, Operand item.expression)
    {columns : List Bytes} {rows : List Row} (h : Wide columns rows) :
    Ordinary (fun r => Wide r.1 r.2) (projectRows items columns rows) := by
  refine (ordinary_mapM (fun item hitem => resolveItem_ordinary (hitems item hitem) columns)).bind
    (fun resolved hresolved => ?_)
  have hrow : ∀ row ∈ rows, Ordinary (fun r => r.length = resolved.length)
      (resolved.mapM (·.value row)) := by
    intro row hrow
    refine (ordinary_mapM (R := fun _ => True) ?_).mono (fun r hr => hr.1)
    intro item hitem
    unfold ProjectedItem.value
    split
    · exact trivial
    next i hi =>
      have hlt := hresolved.2 item hitem i hi
      exact (ordinary_index ((h row hrow).symm ▸ hlt)).mono (fun _ _ => trivial)
  refine (ordinary_mapM hrow).bind (fun projected hprojected => ?_)
  intro row hmem
  rw [hprojected.2 row hmem, List.length_map]

theorem aggregateColumn_ordinary (columns : List Bytes) (name : Bytes) :
    Ordinary (· < columns.length) (aggregateColumn columns name) := by
  unfold aggregateColumn
  split
  · exact ordinary_fault _ _
  next i hi => exact index_idxOf hi

section GroupColumns
variable {kind : ExpressionKind} {columns : List Bytes} {name : Bytes} {i : Nat}

theorem resolveGroupBy_missing (h : columnIndexOf columns name = none) :
    resolveGroupBy ⟨kind, .string name⟩ columns =
      fault "executor: GROUP BY column %q does not exist" [.bytes name] := by
  simp [resolveGroupBy, Payload.toString, bind, Except.bind, h]

theorem resolveGroupBy_found (h : columnIndexOf columns name = some i) :
    resolveGroupBy ⟨kind, .string name⟩ columns = .ok i := by
  simp [resolveGroupBy, Payload.toString, bind, Except.bind, h]
end GroupColumns

section Calculators
variable {columns : List Bytes} {rows : List Row} (h : Wide columns rows)
include h

theorem countCalculator_ordinary (name : Bytes) :
    Ordinary (fun _ => True) (countCalculator name columns rows) := by
  refine (aggregateColumn_ordinary columns name).bind (fun i hi => ?_)
  refine (ordinary_mapM (R := fun _ => True) (fun row hrow => ?_)).bind (fun _ _ => trivial)
  exact (ordinary_index ((h row hrow).symm ▸ hi)).mono (fun _ _ => trivial)

omit h in
theorem extremeLoop_ordinary {name : Bytes} {i : Nat} {minimum : Bool}
    (h : ∀ row ∈ rows, i < row.length) (k : Nat) (extreme : Option Value) :
    Ordinary (fun _ => True) (extremeLoop name i minimum k extreme rows) := by
  induction rows generalizing k extreme with
  | nil => exact trivial
  | cons row rows ih =>
    obtain ⟨hrow, hrows⟩ := List.forall_mem_cons.mp h
    refine (ordinary_index hrow).bind (fun current _ => ?_)
    by_cases hnull : current = .null
    · rw [if_pos hnull]
      exact ih hrows _ _
    · rw [if_neg hnull]
      cases extreme with
      | none => exact ih hrows _ _
      | some value => exact (ordinary_compare current value).wrap.bind (fun _ _ => ih hrows _ _)

theorem calculateExtreme_ordinary (minimum : Bool) (name : Bytes) :
    Ordinary (fun _ => True) (calculateExtreme minimum name columns rows) := by
  refine (aggregateColumn_ordinary columns name).bind (fun i hi => ?_)
  exact (extremeLoop_ordinary (fun row hrow => (h row hrow).symm ▸ hi) 0 none).bind
    (fun _ _ => trivial)

omit h in
theorem sumLoop_ordinary {name : Bytes} {i : Nat} (h : ∀ row ∈ rows, i < row.length) (k : Nat)
    (sum : Option Float64) : Ordinary (fun _ => True) (sumLoop name i k sum rows) := by
  induction rows generalizing k sum with
  | nil => exact trivial
  | cons row rows ih =>
    obtain ⟨hrow, hrows⟩ := List.forall_mem_cons.mp h
    refine (ordinary_index hrow).bind (fun value _ => ?_)
    cases value with
    | null => exact ih hrows _ _
    | integer n => exact ih hrows _ _
    | float f => exact ih hrows _ _
    | boolean b => exact trivial
    | string s => exact trivial

theorem sumCalculator_ordinary (name : Bytes) :
    Ordinary (fun _ => True) (sumCalculator name columns rows) := by
  refine (aggregateColumn_ordinary columns name).bind (fun i hi => ?_)
  exact (sumLoop_ordinary (fun row hrow => (h row hrow).symm ▸ hi) 0 none).bind (fun _ _ => trivial)

theorem avgCalculator_ordinary (name : Bytes) :
    Ordinary (fun _ => True) (avgCalculator name columns rows) := by
  refine (sumCalculator_ordinary h name).wrap.bind (fun a _ => ?_)
  refine (countCalculator_ordinary h name).wrap.bind (fun b _ => ?_)
  cases a <;> cases b <;> exact trivial

theorem buildAggregateCalculator_ordinary (name : Bytes) :
    Ordinary (fun calculator => ∀ argument,
      Ordinary (fun _ => True) (calculator argument columns rows))
      (buildAggregateCalculator name) := by
  unfold buildAggregateCalculator
  simp only
  split_ifs
  · exact countCalculator_ordinary h
  · exact calculateExtreme_ordinary h true
  · exact calculateExtreme_ordinary h false
  · exact sumCalculator_ordinary h
  · exact avgCalculator_ordinary h
  · exact ordinary_fault _ _

theorem calculateRow_ordinary {items : List SelectItem} {groupBy : Option Expression}
    (hitems : ∀ item ∈ items, AggregateItem groupBy item) {groupValue : Option Value}
    (hvalue : groupBy.isSome = true → groupValue.isSome = true) :
    Ordinary (fun row => row.length = items.length)
      (calculateRow items groupValue columns rows) := by
  refine (ordinary_mapM (R := fun _ => True) (fun item hitem => ?_)).mono (fun row hrow => hrow.1)
  obtain ⟨e, aliasName⟩ := item
  cases hitems _ hitem with
  | call call hcall =>
    cases hcall
    refine (buildAggregateCalculator_ordinary h call.name).wrap.bind (fun calculator hcalc => ?_)
    exact (hcalc call.argument).wrap
  | column name hgrouped hcolumn =>
    cases hcolumn
    obtain ⟨v, rfl⟩ := Option.isSome_iff_exists.mp (hvalue hgrouped)
    exact trivial

omit h in
theorem addToGroup_mem {key : Value} {row : Row} {groups : List RowGroup}
    (hgroups : ∀ g ∈ groups, Wide columns g.rows) (hrow : row.length = columns.length) :
    ∀ g ∈ addToGroup key row groups, Wide columns g.rows := by
  induction groups with
  | nil =>
    intro g hg
    rw [List.mem_singleton.mp hg]
    exact fun r hr => List.mem_singleton.mp hr ▸ hrow
  | cons group groups ih =>
    obtain ⟨hgroup, hrest⟩ := List.forall_mem_cons.mp hgroups
    unfold addToGroup
    split_ifs
    · refine List.forall_mem_cons.mpr ⟨?_, hrest⟩
      intro r hr
      rcases List.mem_append.mp hr with hr | hr
      · exact hgroup r hr
      · exact List.mem_singleton.mp hr ▸ hrow
    · exact List.forall_mem_cons.mpr ⟨hgroup, ih hrest⟩

theorem groupRows_ordinary {i : Nat} (hi : i < columns.length) {groups : List RowGroup}
    (hgroups : ∀ g ∈ groups, Wide columns g.rows) :
    Ordinary (fun gs => ∀ g ∈ gs, Wide columns g.rows) (groupRows i groups rows) := by
  induction rows generalizing groups with
  | nil => exact hgroups
  | cons row rows ih =>
    obtain ⟨hrow, hrows⟩ := List.forall_mem_cons.mp h
    refine (ordinary_index (hrow.symm ▸ hi)).bind (fun key _ => ?_)
    exact ih hrows (addToGroup_mem hgroups hrow)

omit h in
theorem aggregateOutputColumns_ordinary {items : List SelectItem} {groupBy : Option Expression}
    (hitems : ∀ item ∈ items, AggregateItem groupBy item) :
    Ordinary (fun names => names.length = items.length) (aggregateOutputColumns items) := by
  refine (ordinary_mapM (R := fun _ => True) (fun item hitem => ?_)).mono (fun _ hr => hr.1)
  obtain ⟨e, aliasName⟩ := item
  cases hitems _ hitem with
  | call call hcall =>
    cases hcall
    exact trivial
  | column name hgrouped hcolumn =>
    cases hcolumn
    exact trivial

/-- So has an aggregation. -/
theorem aggregateRows_ordinary {items : List SelectItem} {groupBy : Option Expression}
    (hitems : ∀ item ∈ items, AggregateItem groupBy item) (hgroup : Given GroupColumn groupBy) :
    Ordinary (fun r => Wide r.1 r.2) (aggregateRows items groupBy columns rows) := by
  refine (aggregateOutputColumns_ordinary hitems).bind (fun names hnames => ?_)
  cases groupBy with
  | none =>
    refine (calculateRow_ordinary h hitems (by simp)).bind (fun row hrow => ?_)
    exact fun r hr => by rw [List.mem_singleton.mp hr, hrow, hnames]
  | some e =>
    obtain ⟨name, rfl⟩ := hgroup e rfl
    have hresolve : Ordinary (· < columns.length)
        (resolveGroupBy ⟨.columnReference, .string name⟩ columns) := by
      cases hi : columnIndexOf columns name with
      | none =>
        rw [resolveGroupBy_missing hi]
        exact ordinary_fault _ _
      | some i =>
        rw [resolveGroupBy_found hi]
        exact index_idxOf hi
    refine hresolve.bind (fun i hi => ?_)
    refine (groupRows_ordinary h hi (List.forall_mem_nil _)).bind (fun groups hgroups => ?_)
    refine (ordinary_mapM (fun g hg =>
      (calculateRow_ordinary (hgroups g hg) hitems (fun _ => rfl)).wrap)).bind (fun out hout => ?_)
    exact fun row hrow => by rw [hout.2 row hrow, hnames]

end Calculators

theorem matchRows_ordinary {predicate : Option Expression} (hp : Given Comparison predicate)
    {leftColumns rightColumns : List Bytes} {a : Row} (ha : a.length = leftColumns.length)
    {rows : List Row} (h : Wide rightColumns rows) :
    Ordinary (Wide (leftColumns ++ rightColumns))
      (matchRows predicate leftColumns a rightColumns rows) := by
  induction rows with
  | nil => exact List.forall_mem_nil _
  | cons b rows ih =>
    obtain ⟨hb, hrows⟩ := List.forall_mem_cons.mp h
    have hjoin : (a ++ b).length = (leftColumns ++ rightColumns).length := by simp [ha, hb]
    have hmatch : Ordinary (fun _ => True) (isMatch predicate leftColumns a rightColumns b) := by
      cases predicate with
      | none => exact trivial
      | some e => exact (evaluate_comparison (hp e rfl) ha hb).wrap.bind (fun _ _ => trivial)
    refine hmatch.bind (fun kept _ => (ih hrows).bind (fun matched hmatched => ?_))
    cases kept with
    | true => exact List.forall_mem_cons.mpr ⟨hjoin, hmatched⟩
    | false => exact hmatched

/-- So have the loops of a join. -/
theorem joinLoop_ordinary {predicate : Option Expression} (hp : Given Comparison predicate)
    (outer : Bool) {leftColumns rightColumns : List Bytes} {leftRows rightRows : List Row}
    (hleft : Wide leftColumns leftRows) (hright : Wide rightColumns rightRows) :
    Ordinary (Wide (leftColumns ++ rightColumns))
      (joinLoop predicate outer leftColumns rightColumns rightRows leftRows) := by
  induction leftRows with
  | nil => exact List.forall_mem_nil _
  | cons a rows ih =>
    obtain ⟨ha, hrows⟩ := List.forall_mem_cons.mp hleft
    refine (matchRows_ordinary hp ha hright).bind (fun matched hmatched => ?_)
    refine (ih hrows).bind (fun joined hjoined => ?_)
    refine List.forall_mem_append.mpr ⟨?_, hjoined⟩
    split_ifs
    · intro row hrow
      simp [List.mem_singleton.mp hrow, ha]
    · exact hmatched

/-- A join runs its loops when `make` takes the product of the row counts. -/
theorem joinRows_capacity (predicate : Option Expression) (outer : Bool)
    (leftColumns rightColumns : List Bytes)
    (leftRows rightRows : List Row) :
    joinRows predicate outer leftColumns rightColumns rightRows leftRows =
      if CapacityFits (leftRows.length * rightRows.length) then
        joinLoop predicate outer leftColumns rightColumns rightRows leftRows
      else .error (.panic capOutOfRange) := by
  unfold joinRows makeRows
  split_ifs <;> rfl

theorem joinRows_concludes {predicate : Option Expression} (hp : Given Comparison predicate)
    (outer : Bool) {leftColumns rightColumns : List Bytes} {leftRows rightRows : List Row}
    (hleft : Wide leftColumns leftRows) (hright : Wide rightColumns rightRows) :
    Concludes (· = capOutOfRange) (Wide (leftColumns ++ rightColumns))
      (joinRows predicate outer leftColumns rightColumns rightRows leftRows) := by
  rw [joinRows_capacity]
  split_ifs
  · exact (joinLoop_ordinary hp outer hleft hright).panics fun _ => False.elim
  · exact rfl

end SpaceDB.Proofs
