import SpaceDB.Lib.Grouping
import SpaceDB.Proofs.OrderBy

namespace SpaceDB.Proofs
open Lib Storage Sql

section Comparisons
variable {a b c : Value} {x y : Int}

theorem Float64.lt_iff {f g : Float64} :
    f.lt g = true ↔ f.isNaN = false ∧ g.isNaN = false ∧ f.rank < g.rank := by
  simp [Float64.lt, and_assoc]

theorem Float64.lt_trans {f g k : Float64} (hfg : f.lt g = true) (hgk : g.lt k = true) :
    f.lt k = true := by
  rw [Float64.lt_iff] at hfg hgk ⊢
  exact ⟨hfg.1, hgk.2.1, hfg.2.2.trans hgk.2.2⟩

theorem Float64.ofInt_lt {f : Float64} {i j : Int} (h : i ≤ j) :
    ((Float64.ofInt j).lt f = true → (Float64.ofInt i).lt f = true) ∧
      (f.lt (Float64.ofInt i) = true → f.lt (Float64.ofInt j) = true) := by
  have hrank := Float64.ofInt_mono h
  simp only [Float64.lt_iff, Float64.isNaN_ofInt]
  exact ⟨fun hj => ⟨trivial, hj.2.1, hrank.trans_lt hj.2.2⟩,
    fun hi => ⟨hi.1, trivial, hi.2.2.trans_le hrank⟩⟩

def Before : Value → Value → Prop
  | .null, .null => False
  | .null, _ => True
  | .boolean a, .boolean b => a = false ∧ b = true
  | .integer a, .integer b => a.val < b.val
  | .float a, .float b => a.lt b = true
  | .integer a, .float b => (Float64.ofInt a.val).lt b = true
  | .float a, .integer b => a.lt (Float64.ofInt b.val) = true
  | .string a, .string b => a < b
  | _, _ => False

/-- The order of values of one class is transitive. -/
theorem Before.trans (hab : Before a b) (hbc : Before b c) : Before a c := by
  cases a with
  | null =>
    cases c with
    | null => cases b <;> exact hbc.elim
    | _ => trivial
  | boolean x =>
    cases b with
    | boolean y =>
      cases c with
      | boolean z => exact ⟨hab.1, hbc.2⟩
      | _ => exact hbc.elim
    | _ => exact hab.elim
  | integer i =>
    cases b with
    | integer j =>
      cases c with
      | integer k => exact Int.lt_trans hab hbc
      | float k => exact (Float64.ofInt_lt (le_of_lt hab)).1 hbc
      | _ => exact hbc.elim
    | float g =>
      cases c with
      | integer k =>
        -- Were the integers the other way round, so would their floats be.
        by_contra hle
        have hback := (Float64.ofInt_lt (not_lt.mp hle)).2 hbc
        exact lt_asymm (Float64.lt_iff.mp hab).2.2 (Float64.lt_iff.mp hback).2.2
      | float k => exact Float64.lt_trans hab hbc
      | _ => exact hbc.elim
    | _ => exact hab.elim
  | float f =>
    cases b with
    | integer j =>
      cases c with
      | integer k => exact (Float64.ofInt_lt (le_of_lt hbc)).2 hab
      | float k => exact Float64.lt_trans hab hbc
      | _ => exact hbc.elim
    | float g =>
      cases c with
      | integer k => exact Float64.lt_trans hab hbc
      | float k => exact Float64.lt_trans hab hbc
      | _ => exact hbc.elim
    | _ => exact hab.elim
  | string s =>
    cases b with
    | string t =>
      cases c with
      | string u => exact lt_trans (α := Bytes) hab hbc
      | _ => exact hbc.elim
    | _ => exact hab.elim

theorem compareFloats_spec (f g : Float64) :
    (Value.compareFloats f g < 0 ↔ f.lt g = true) ∧
    (0 < Value.compareFloats f g ↔ g.lt f = true) := by
  have hasymm : f.lt g = true → ¬ g.lt f = true := fun hfg hgf =>
    lt_asymm (Float64.lt_iff.mp hfg).2.2 (Float64.lt_iff.mp hgf).2.2
  unfold Value.compareFloats
  split_ifs with hfg hgf <;> simp_all

/-- The sign of `Compare` says which value comes first. -/
theorem compare_spec (h : a.compare b = .ok x) : (x < 0 ↔ Before a b) ∧ (0 < x ↔ Before b a) := by
  cases a with
  | null => cases b <;> cases h <;> simp [Before]
  | boolean y =>
    cases b with
    | boolean z => cases h; cases y <;> cases z <;> simp [Before]
    | null => cases h; simp [Before]
    | _ => cases h
  | integer i =>
    cases b with
    | integer j =>
      cases h
      rw [threeWay_eq]
      exact ⟨threeWay_neg, threeWay_pos⟩
    | float g => cases h; exact compareFloats_spec _ _
    | null => cases h; simp [Before]
    | _ => cases h
  | float f =>
    cases b with
    | integer j => cases h; exact compareFloats_spec _ _
    | float g => cases h; exact compareFloats_spec _ _
    | null => cases h; simp [Before]
    | _ => cases h
  | string s =>
    cases b with
    | string t =>
      cases h
      rw [threeWay_eq]
      exact ⟨threeWay_neg, threeWay_pos⟩
    | null => cases h; simp [Before]
    | _ => cases h

/-- Values other than NULL of one class can be compared. -/
def comparisonClass : Value → Nat
  | .float _ => 2
  | v => v.kind

theorem compare_ok_iff (ha : a ≠ .null) (hb : b ≠ .null) :
    (∃ x, a.compare b = .ok x) ↔ comparisonClass a = comparisonClass b := by
  cases a <;> cases b <;> simp_all [Value.compare, comparisonClass, Value.kind, fault]

end Comparisons

/-- The one value is not beyond the other: not less when the least is looked
for, not greater when the greatest is. -/
def NotBeyond (minimum : Bool) (w v : Value) : Prop :=
  ∃ c, w.compare v = .ok c ∧ if minimum then 0 ≤ c else c ≤ 0

/-- The least or greatest of the values that are not NULL, if there is one. -/
def Extreme (minimum : Bool) (values : List Value) : Option Value → Prop
  | none => ∀ w ∈ values, w = .null
  | some v => v ∈ values ∧ v ≠ .null ∧ ∀ w ∈ values, w ≠ .null → NotBeyond minimum w v

section Extremes
variable {minimum : Bool} {values : List Value} {v w current : Value} {c : Int}

theorem notBeyond_refl (hv : v ≠ .null) : NotBeyond minimum v v := by
  obtain ⟨c, hc⟩ := (compare_ok_iff hv hv).mpr rfl
  have hspec := compare_spec hc
  have hzero : c = 0 := by
    by_contra hne
    rcases lt_or_gt_of_ne hne with hlt | hgt
    · exact absurd (hspec.2.mpr (hspec.1.mp hlt)) (by omega)
    · exact absurd (hspec.1.mpr (hspec.2.mp hgt)) (by omega)
  exact ⟨c, hc, by cases minimum <;> simp [hzero]⟩

/-- What is not beyond the old extreme is not beyond one that replaces it. -/
theorem NotBeyond.replace (hw : NotBeyond minimum w v) (hwn : w ≠ .null) (hvn : v ≠ .null)
    (hcn : current ≠ .null) (hc : current.compare v = .ok c)
    (hreplace : if minimum then c < 0 else 0 < c) : NotBeyond minimum w current := by
  obtain ⟨x, hx, hbound⟩ := hw
  have hclass : comparisonClass w = comparisonClass current :=
    ((compare_ok_iff hwn hvn).mp ⟨x, hx⟩).trans ((compare_ok_iff hcn hvn).mp ⟨c, hc⟩).symm
  obtain ⟨y, hy⟩ := (compare_ok_iff hwn hcn).mpr hclass
  refine ⟨y, hy, ?_⟩
  cases minimum with
  | true =>
    by_contra hlt
    have hbefore := ((compare_spec hy).1.mp (not_le.mp hlt)).trans ((compare_spec hc).1.mp hreplace)
    exact absurd ((compare_spec hx).1.mpr hbefore) (not_lt.mpr hbound)
  | false =>
    by_contra hgt
    have hbefore := ((compare_spec hc).2.mp hreplace).trans ((compare_spec hy).2.mp (not_le.mp hgt))
    exact absurd ((compare_spec hx).2.mpr hbefore) (not_lt.mpr hbound)

/-- A NULL does not count. -/
theorem Extreme.null {o : Option Value} (h : Extreme minimum values o) :
    Extreme minimum (values ++ [.null]) o := by
  cases o with
  | none =>
    intro w hw
    rcases List.mem_append.mp hw with hw | hw
    · exact h w hw
    · exact List.mem_singleton.mp hw
  | some v =>
    refine ⟨List.mem_append_left _ h.1, h.2.1, ?_⟩
    intro w hw hwn
    rcases List.mem_append.mp hw with hw | hw
    · exact h.2.2 w hw hwn
    · exact absurd (List.mem_singleton.mp hw) hwn

theorem Extreme.first (h : Extreme minimum values none) (hcn : current ≠ .null) :
    Extreme minimum (values ++ [current]) (some current) := by
  refine ⟨by simp, hcn, ?_⟩
  intro w hw hwn
  rcases List.mem_append.mp hw with hw | hw
  · exact absurd (h w hw) hwn
  · rw [List.mem_singleton.mp hw]
    exact notBeyond_refl hcn

/-- One further value, compared with the extreme so far. -/
theorem Extreme.next (h : Extreme minimum values (some v)) (hcn : current ≠ .null)
    (hc : current.compare v = .ok c) :
    Extreme minimum (values ++ [current])
      (some (if minimum && decide (c < 0) || !minimum && decide (c > 0) then current else v)) := by
  obtain ⟨hmem, hvn, hall⟩ := h
  split_ifs with hreplace
  · have hif : if minimum then c < 0 else 0 < c := by cases minimum <;> simpa using hreplace
    refine ⟨by simp, hcn, ?_⟩
    intro w hw hwn
    rcases List.mem_append.mp hw with hw | hw
    · exact (hall w hw hwn).replace hwn hvn hcn hc hif
    · rw [List.mem_singleton.mp hw]
      exact notBeyond_refl hcn
  · refine ⟨List.mem_append_left _ hmem, hvn, ?_⟩
    intro w hw hwn
    rcases List.mem_append.mp hw with hw | hw
    · exact hall w hw hwn
    · rw [List.mem_singleton.mp hw]
      exact ⟨c, hc, by cases minimum <;> simpa using hreplace⟩

end Extremes

section Columns
variable {columns : List Bytes} {name : Bytes} {columnIndex : Nat} {rows : List Row}

theorem index_value {row : Row} {v : Value} (hi : columnIndexOf columns name = some columnIndex)
    (h : index row columnIndex = .ok v) : columnValue columns row name = v := by
  unfold index at h
  cases hv : row[columnIndex]? with
  | none => rw [hv] at h; cases h
  | some u =>
    rw [hv] at h
    cases h
    exact columnValue_eq hi hv

/-- The loop keeps the extreme of the rows it has seen. -/
theorem extremeLoop_spec (hi : columnIndexOf columns name = some columnIndex)
    {minimum : Bool} {i : Nat}
    {seen : List Value} {extreme result : Option Value} (hseen : Extreme minimum seen extreme)
    (h : extremeLoop name columnIndex minimum i extreme rows = .ok result) :
    Extreme minimum (seen ++ rows.map (columnValue columns · name)) result := by
  induction rows generalizing i seen extreme with
  | nil =>
    cases h
    simpa using hseen
  | cons row rows ih =>
    rw [extremeLoop] at h
    obtain ⟨current, hcurrent, h⟩ := outcome_bind_ok h
    rw [List.map_cons, ← List.singleton_append, ← List.append_assoc, index_value hi hcurrent]
    split_ifs at h with hnull
    · rw [hnull]
      exact ih hseen.null h
    · cases extreme with
      | none => exact ih (hseen.first hnull) h
      | some v =>
        obtain ⟨c, hc, h⟩ := outcome_bind_ok h
        exact ih (hseen.next hnull (outcome_wrap_ok hc)) h

theorem aggregateColumn_ok {i : Nat} (h : aggregateColumn columns name = .ok i) :
    columnIndexOf columns name = some i := by
  unfold aggregateColumn at h
  cases hi : columnIndexOf columns name with
  | none => rw [hi] at h; cases h
  | some j =>
    rw [hi] at h
    cases h
    rfl

theorem calculateExtreme_spec {minimum : Bool} {v : Value}
    (h : calculateExtreme minimum name columns rows = .ok v) :
    ∃ o, Extreme minimum (rows.map (columnValue columns · name)) o ∧ v = o.getD .null := by
  obtain ⟨i, hi, h⟩ := outcome_bind_ok h
  obtain ⟨o, ho, h⟩ := outcome_bind_ok h
  cases h
  have hnone : Extreme minimum [] none := List.forall_mem_nil _
  exact ⟨o, extremeLoop_spec (aggregateColumn_ok hi) hnone ho, rfl⟩

theorem index_mapM (hi : columnIndexOf columns name = some columnIndex) {values : List Value}
    (h : rows.mapM (index · columnIndex) = .ok values) :
    values = rows.map (columnValue columns · name) := by
  induction rows generalizing values with
  | nil => exact (Except.ok.inj h).symm
  | cons row rows ih =>
    rw [List.mapM_cons] at h
    obtain ⟨v, hv, h⟩ := outcome_bind_ok h
    obtain ⟨vs, hvs, h⟩ := outcome_bind_ok h
    cases h
    rw [List.map_cons, index_value hi hv, ih hvs]

theorem countCalculator_spec {v : Value} (h : countCalculator name columns rows = .ok v) :
    v = .integer
      (.wrap ((rows.map (columnValue columns · name)).countP (fun w => decide (w ≠ .null)))) := by
  obtain ⟨i, hi, h⟩ := outcome_bind_ok h
  obtain ⟨values, hvalues, h⟩ := outcome_bind_ok h
  cases h
  rw [index_mapM (aggregateColumn_ok hi) hvalues]

/-- The loop puts one row after the other into its group. -/
theorem groupRows_eq (hi : columnIndexOf columns name = some columnIndex)
    {groups result : List RowGroup}
    (h : groupRows columnIndex groups rows = .ok result) :
    result = rows.foldl (fun groups row =>
      addToGroup (columnValue columns row name) row groups) groups := by
  induction rows generalizing groups with
  | nil => exact (Except.ok.inj h).symm
  | cons row rows ih =>
    obtain ⟨key, hkey, h⟩ := outcome_bind_ok h
    rw [List.foldl_cons, index_value hi hkey]
    exact ih h

end Columns

theorem resolveGroupBy_ok {kind : ExpressionKind} {name : Bytes} {columns : List Bytes} {i : Nat}
    (h : resolveGroupBy ⟨kind, .string name⟩ columns = .ok i) :
    columnIndexOf columns name = some i := by
  cases hi : columnIndexOf columns name with
  | none =>
    rw [resolveGroupBy_missing hi] at h
    cases h
  | some j =>
    rw [resolveGroupBy_found hi] at h
    exact congrArg some (Except.ok.inj h)

theorem equal_equivalence : KeyEquivalence IsNumber Value.equal where
  refl := by
    intro a ha
    cases a with
    | float f => simpa [Value.equal, Float64.eq, IsNumber] using ha
    | _ => simp [Value.equal]
  symm := by
    intro a b hab
    cases a <;> cases b <;> simp_all [Value.equal, Float64.eq]
  trans := by
    intro a b c hab hbc
    cases a <;> cases b <;> cases c <;> simp_all [Value.equal, Float64.eq]

def rowsWith (columns : List Bytes) (name : Bytes) (key : Value) (rows : List Row) : List Row :=
  rows.filter (fun row => key.equal (columnValue columns row name))

def groupKeys (columns : List Bytes) (name : Bytes) (rows : List Row) : List Value :=
  firstOccurrences Value.equal (rows.map (columnValue columns · name))

/-- The groups are those of the distinct keys, each with all its rows in their order. -/
theorem groupRows_spec {columns : List Bytes} {name : Bytes} {columnIndex : Nat} {rows : List Row}
    {result : List RowGroup} (hi : columnIndexOf columns name = some columnIndex)
    (hnumber : ∀ row ∈ rows, IsNumber (columnValue columns row name))
    (h : groupRows columnIndex [] rows = .ok result) :
    result = (groupKeys columns name rows).map fun key =>
      ⟨key, rowsWith columns name key rows⟩ := by
  have hadd : ∀ key row groups, addTo Value.equal key row (groups.map fun g => (g.key, g.rows)) =
      (addToGroup key row groups).map fun g => (g.key, g.rows) := by
    intro key row groups
    induction groups with
    | nil => rfl
    | cons group groups ih =>
      rw [List.map_cons, addTo, addToGroup, ih]
      split_ifs <;> rfl
  have hpairs :
      rows.foldl (fun groups row => addTo Value.equal (columnValue columns row name) row groups)
      (([] : List RowGroup).map fun g => (g.key, g.rows)) =
      (rows.foldl (fun groups row => addToGroup (columnValue columns row name) row groups) []).map
        fun g => (g.key, g.rows) :=
    List.foldl_hom (List.map fun g => (g.key, g.rows)) (fun groups row => hadd _ row groups)
  rw [List.map_nil, equal_equivalence.foldl_addTo rows hnumber, ← groupRows_eq hi h] at hpairs
  have hback := congrArg (List.map fun p : Value × List Row => (⟨p.1, p.2⟩ : RowGroup)) hpairs
  simpa [List.map_map, Function.comp_def, groupKeys, rowsWith, withKey] using hback.symm

/-- What a call makes of the rows: COUNT is the number of values that are not
NULL, MIN and MAX the least and the greatest of them. -/
def Aggregated (call : FunctionCall) (columns : List Bytes) (rows : List Row) (v : Value) : Prop :=
  let values := rows.map (columnValue columns · call.argument)
  let upper := call.name.map toUpper
  (upper = ascii "COUNT" → ∃ n, v = .integer n ∧
    n.val = values.countP (fun w => decide (w ≠ .null))) ∧
    (upper = ascii "MIN" → ∃ o, Extreme true values o ∧ v = o.getD .null) ∧
    (upper = ascii "MAX" → ∃ o, Extreme false values o ∧ v = o.getD .null)

/-- The value of an item for the rows of one group: a call as the aggregation
of these rows without GROUP BY computes it, the group column as it is. -/
def ItemOver (columns : List Bytes) (rows : List Row) (key : Value) (item : SelectItem)
    (v : Value) : Prop :=
  match item.expression.kind with
  | .functionExpression =>
    ∃ call names, item.expression.value = .functionCall call ∧
      aggregateRows [item] none columns rows = .ok (names, [[v]]) ∧ Aggregated call columns rows v
  | _ => v = key

/-- A calculator computes what its name says. -/
theorem aggregated_of_calculator {call : FunctionCall} {columns : List Bytes}
    {rows : List Row} {v : Value}
    {calculator : Bytes → List Bytes → List Row → Outcome Value} (hrows : rows.length < 2 ^ 63)
    (hbuild : buildAggregateCalculator call.name = .ok calculator)
    (h : calculator call.argument columns rows = .ok v) : Aggregated call columns rows v := by
  unfold buildAggregateCalculator at hbuild
  simp only at hbuild
  refine ⟨fun hcount => ?_, fun hmin => ?_, fun hmax => ?_⟩
  · rw [if_pos hcount] at hbuild
    cases hbuild
    refine ⟨_, countCalculator_spec h, ?_⟩
    have hle := List.countP_le_length (p := fun w => decide (w ≠ Value.null))
      (l := rows.map (columnValue columns · call.argument))
    rw [List.length_map] at hle
    simp only [Int64.wrap]
    omega
  · rw [if_neg (by rw [hmin]; decide), if_pos hmin] at hbuild
    cases hbuild
    exact calculateExtreme_spec h
  · rw [if_neg (by rw [hmax]; decide), if_neg (by rw [hmax]; decide), if_pos hmax] at hbuild
    cases hbuild
    exact calculateExtreme_spec h

/-- One value of a result row. -/
theorem calculateItem_spec {key v : Value} {columns : List Bytes} {rows : List Row}
    {item : SelectItem}
    {name : Bytes} (hrows : rows.length < 2 ^ 63) (hname : aggregateOutputColumn item = .ok name)
    (h : calculateItem (some key) columns rows item = .ok v) :
    ItemOver columns rows key item v := by
  obtain ⟨⟨kind, value⟩, aliasName⟩ := item
  cases kind with
  | functionExpression =>
    obtain ⟨call, hcall, hcalculate⟩ := outcome_bind_ok h
    obtain ⟨calculator, hbuild, hcalculate⟩ := outcome_bind_ok hcalculate
    have hvalue : value = .functionCall call := by
      cases value with
      | functionCall c => exact congrArg _ (Except.ok.inj hcall)
      | _ => cases hcall
    refine ⟨call, [name], hvalue, ?_, ?_⟩
    · have hrow : calculateItem none columns rows
          ⟨⟨.functionExpression, value⟩, aliasName⟩ = .ok v := h
      simp only [aggregateRows, aggregateOutputColumns, calculateRow, List.mapM_cons, List.mapM_nil,
        hname, hrow]
      rfl
    · exact aggregated_of_calculator hrows (outcome_wrap_ok hbuild) (outcome_wrap_ok hcalculate)
  | _ => exact (Except.ok.inj h).symm

theorem calculateRow_spec {key : Value} {columns : List Bytes} {rows : List Row}
    {items : List SelectItem}
    {names : List Bytes} {row : Row} (hrows : rows.length < 2 ^ 63)
    (hnames : aggregateOutputColumns items = .ok names)
    (h : calculateRow items (some key) columns rows = .ok row) :
    List.Forall₂ (ItemOver columns rows key) items row := by
  have hitems := mapM_forall₂ h
  have hcolumns := mapM_forall₂ hnames
  clear h hnames
  induction hitems generalizing names with
  | nil => exact .nil
  | cons hitem hrest ih =>
    cases hcolumns with
    | cons hname hcolumns => exact .cons (calculateItem_spec hrows hname hitem) (ih hcolumns)

/-- The rows of an aggregation by a column without NaN: one for every value of
the column, in the order in which the values come first, computed from the
source rows that have the value; and every source row has exactly one of them. -/
theorem group_by_partitions {σ : Type} {h : Handler TxnCall TxnRet σ} {walk : Walk} {s s' s'' : σ}
    {source : Node} {columns names : List Bytes} {rows output : List Row} {items : List SelectItem}
    {name : Bytes} (hsource : (execute walk source).run h s = (.ok (.rows columns rows), s'))
    (hlength : rows.length < 2 ^ 63)
    (hnumber : ∀ row ∈ rows, IsNumber (columnValue columns row name))
    (hok : (execute walk
      (.aggregate source items (some ⟨.columnReference, .string name⟩))).run h s =
        (.ok (.rows names output), s'')) :
    List.Forall₂
      (fun key => List.Forall₂ (ItemOver columns (rowsWith columns name key rows) key) items)
        (groupKeys columns name rows) output ∧
      ∀ row ∈ rows, ∃! key, key ∈ groupKeys columns name rows ∧
      row ∈ rowsWith columns name key rows := by
  have hrows : aggregateRows items (some ⟨.columnReference, .string name⟩) columns rows =
      .ok (names, output) := by
    rw [aggregateNode_run hsource] at hok
    cases hresult : aggregateRows items (some ⟨.columnReference, .string name⟩) columns rows with
    | error e =>
      rw [hresult] at hok
      cases hok
    | ok r =>
      rw [hresult] at hok
      cases hok
      rfl
  constructor
  · obtain ⟨outputColumns, hcolumns, hrows⟩ := outcome_bind_ok hrows
    obtain ⟨i, hi, hrows⟩ := outcome_bind_ok hrows
    obtain ⟨groups, hgroups, hrows⟩ := outcome_bind_ok hrows
    obtain ⟨outputRows, hmap, hrows⟩ := outcome_bind_ok hrows
    cases hrows
    rw [groupRows_spec (resolveGroupBy_ok hi) hnumber hgroups] at hmap
    refine (List.forall₂_map_left_iff.mp (mapM_forall₂ hmap)).imp ?_
    intro key row hrow
    have hfewer : (rowsWith columns name key rows).length < 2 ^ 63 :=
      (List.length_filter_le _ _).trans_lt hlength
    exact calculateRow_spec hfewer hcolumns (outcome_wrap_ok hrow)
  · intro row hrow
    obtain ⟨key, hkey, hequal, hunique⟩ :=
      equal_equivalence.firstOccurrences_unique (hnumber row hrow)
        (List.mem_map_of_mem (f := (columnValue columns · name)) hrow)
    refine ⟨key, ⟨hkey, List.mem_filter.mpr ⟨hrow, hequal⟩⟩, ?_⟩
    intro key' hkey'
    exact hunique key' hkey'.1 (List.mem_filter.mp hkey'.2).2

def callItem (function argument : String) : SelectItem :=
  ⟨⟨.functionExpression, .functionCall ⟨ascii function, ascii argument⟩⟩, none⟩

def columnItem (name : String) : SelectItem := ⟨⟨.columnReference, .string (ascii name)⟩, none⟩

def groupedRows : List Row :=
  [integerRow [some (.wrap 2), some (.wrap 2), some (.wrap 3)],
    integerRow [none, some (.wrap 1), some (.wrap 1)],
    integerRow [some (.wrap 5), some (.wrap 1), some (.wrap 2)]]

theorem group_by_partitions_nulls :
    (Sql.execute id (.aggregate (.scan (ascii "t"))
      [columnItem "a", callItem "count" "n", callItem "max" "n"]
      (some ⟨.columnReference, .string (ascii "a")⟩))).run
        (fixedRows unsortedTable unsortedRows) () =
        (.ok (.rows [ascii "a", ascii "count", ascii "max"] groupedRows), ()) ∧
    ∀ row ∈ unsortedRows, ∃! key, key ∈ groupKeys [ascii "a", ascii "n"] (ascii "a") unsortedRows ∧
      row ∈ rowsWith [ascii "a", ascii "n"] (ascii "a") key unsortedRows := by
  have hsource : (Sql.execute id (.scan (ascii "t"))).run
      (fixedRows unsortedTable unsortedRows) () =
      (.ok (.rows [ascii "a", ascii "n"] unsortedRows), ()) := rfl
  have hnumber : ∀ row ∈ unsortedRows,
      IsNumber (columnValue [ascii "a", ascii "n"] row (ascii "a")) := by
    intro row hrow
    simp only [unsortedRows, List.mem_cons, List.not_mem_nil, or_false] at hrow
    rcases hrow with rfl | rfl | rfl | rfl <;> exact trivial
  have hrun : (Sql.execute id (.aggregate (.scan (ascii "t"))
      [columnItem "a", callItem "count" "n", callItem "max" "n"]
      (some ⟨.columnReference, .string (ascii "a")⟩))).run
        (fixedRows unsortedTable unsortedRows) () =
        (.ok (.rows [ascii "a", ascii "count", ascii "max"] groupedRows), ()) := by
    decide +kernel
  exact ⟨hrun, (group_by_partitions hsource (by decide) hnumber hrun).2⟩

def nanTable : Table := ⟨ascii "t", [⟨ascii "f", .float, true, none, false⟩]⟩

/-- For Go's `==` a NaN differs from itself, so every row with one is a group
of its own. -/
theorem nan_groups_apart :
    (Sql.execute id (.aggregate (.scan (ascii "t")) [columnItem "f", callItem "count" "f"]
      (some ⟨.columnReference, .string (ascii "f")⟩))).run
        (fixedRows nanTable [[.float .nan], [.float .nan]]) () =
      (.ok (.rows [ascii "f", ascii "count"]
        [[.float .nan, .integer ⟨1, by decide⟩], [.float .nan, .integer ⟨1, by decide⟩]]), ()) := by
  decide +kernel

end SpaceDB.Proofs
