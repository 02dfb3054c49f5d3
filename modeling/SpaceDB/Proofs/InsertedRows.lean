import SpaceDB.Engine.Kv
import SpaceDB.Proofs.Executions

namespace SpaceDB.Proofs
open Lib Storage Sql Engine

variable {columns : List Column} {names : List Bytes} {input result row : Row} {filled : List Bool}
  {given : Nat → Option Value} {table : Table}

def supplied (columns : List Column) (names : List Bytes) (input : Row) (i : Nat) : Option Value :=
  if names = [] then input[i]? else ((names.map (positionOf columns)).zip input).lookup (some i)

/-- An INSERT with names gives one value to each, and no two to one column.
Without names it may have as many values as there are columns. -/
structure Admits (columns : List Column) (names : List Bytes) (input : Row) : Prop where
  positional : names = [] → input.length ≤ columns.length
  length : names ≠ [] → names.length = input.length
  known : ∀ name ∈ names, ∃ i, positionOf columns name = some i
  once : (names.map (positionOf columns)).Nodup

structure Completed (columns : List Column) (given : Nat → Option Value) (row : Row) : Prop where
  length : row.length = columns.length
  values : ∀ {i c}, columns[i]? = some c → row[i]? = (given i).or c.default

/-- The values given so far, as the loop of `makeInsertRow` keeps them. -/
structure Placed (columns : List Column) (given : Nat → Option Value) (result : Row)
    (filled : List Bool) : Prop where
  result_length : result.length = columns.length
  filled_length : filled.length = columns.length
  filled_iff : ∀ i < columns.length, filled[i]? = some (given i).isSome
  result_eq : ∀ {i v}, given i = some v → i < columns.length → result[i]? = some v

/-- The given values and the defaults determine the row. -/
theorem Completed.unique {row' : Row} (h : Completed columns given row)
    (h' : Completed columns given row') : row = row' := by
  apply List.ext_getElem?
  intro i
  cases hc : columns[i]? with
  | none =>
    have hi := List.getElem?_eq_none_iff.mp hc
    rw [List.getElem?_eq_none (by rw [h.length]; exact hi),
      List.getElem?_eq_none (by rw [h'.length]; exact hi)]
  | some c => rw [h.values hc, h'.values hc]

theorem placed_start (columns : List Column) :
    Placed columns (fun _ => none) (.replicate columns.length .null)
      (.replicate columns.length false) := by
  refine ⟨List.length_replicate, List.length_replicate, ?_, ?_⟩
  · exact fun i => List.getElem?_replicate_of_lt
  · intro i v h
    cases h

/-- One value more is placed. -/
theorem Placed.give (h : Placed columns given result filled) (i : Nat) (v : Value) :
    Placed columns (Function.update given i (some v)) (result.set i v) (filled.set i true) := by
  refine ⟨by rw [List.length_set, h.result_length],
    by rw [List.length_set, h.filled_length], ?_, ?_⟩
  · intro j hj
    rw [List.getElem?_set, Function.update_apply, h.filled_length]
    by_cases hij : i = j
    · simp [hij, hj]
    · rw [if_neg hij, if_neg (Ne.symm hij)]
      exact h.filled_iff j hj
  · intro j w hw hj
    rw [List.getElem?_set, h.result_length]
    rw [Function.update_apply] at hw
    by_cases hij : i = j
    · rw [if_pos hij.symm] at hw
      simp [hij, hj, hw]
    · rw [if_neg (Ne.symm hij)] at hw
      rw [if_neg hij]
      exact h.result_eq hw hj

/-- Names that are known, for columns that have no value yet, and each once. -/
def Fresh (columns : List Column) (given : Nat → Option Value) (names : List Bytes) : Prop :=
  (∀ name ∈ names, ∃ i, positionOf columns name = some i ∧ given i = none) ∧
    (names.map (positionOf columns)).Nodup

/-- A name is fresh when its column has no value yet, and it then has one. -/
theorem fresh_cons {name : Bytes} {i : Nat} (hi : positionOf columns name = some i) (v : Value) :
    Fresh columns given (name :: names) ↔
      given i = none ∧ Fresh columns (Function.update given i (some v)) names := by
  unfold Fresh
  rw [List.forall_mem_cons, List.map_cons, List.nodup_cons, hi]
  constructor
  · rintro ⟨⟨⟨j, hj, hnone⟩, hrest⟩, hnotin, hnodup⟩
    cases hj
    refine ⟨hnone, ?_, hnodup⟩
    intro other hother
    obtain ⟨j, hj, hfree⟩ := hrest other hother
    refine ⟨j, hj, ?_⟩
    rw [Function.update_of_ne, hfree]
    rintro rfl
    exact hnotin (List.mem_map.mpr ⟨other, hother, hj⟩)
  · rintro ⟨hnone, hrest, hnodup⟩
    refine ⟨⟨⟨i, rfl, hnone⟩, ?_⟩, ?_, hnodup⟩
    · intro other hother
      obtain ⟨j, hj, hfree⟩ := hrest other hother
      rw [Function.update_apply] at hfree
      split_ifs at hfree
      exact ⟨j, hj, hfree⟩
    · intro hin
      obtain ⟨other, hother, heq⟩ := List.mem_map.mp hin
      obtain ⟨j, hj, hfree⟩ := hrest other hother
      rw [heq] at hj
      cases hj
      rw [Function.update_self] at hfree
      cases hfree

/-- No fresh name stands for a column that has a value. -/
theorem lookup_fresh {i : Nat} {values : Row} (h : Fresh columns given names)
    (hi : given i ≠ none) : ((names.map (positionOf columns)).zip values).lookup
      (some i) = none := by
  apply List.lookup_eq_none_iff.mpr
  intro p hp
  apply bne_iff_ne.mpr
  intro heq
  obtain ⟨name, hname, hpos⟩ := List.mem_map.mp (List.of_mem_zip hp).1
  obtain ⟨j, hj, hnone⟩ := h.1 name hname
  rw [← hpos, hj] at heq
  cases heq
  exact hi hnone

theorem placeValues_unknown {k : Nat} {name : Bytes} (hi : positionOf columns name = none) :
    ∃ e, placeValues columns input k result filled (name :: names) = .error e := by
  unfold placeValues
  rw [hi]
  exact ⟨_, rfl⟩

theorem placeValues_taken {k i : Nat} {name : Bytes} (hi : positionOf columns name = some i)
    (hfilled : filled[i]? = some true) :
    ∃ e, placeValues columns input k result filled (name :: names) = .error e := by
  unfold placeValues
  simp only [hi, index_eq hfilled]
  exact ⟨_, rfl⟩

theorem placeValues_free {k i : Nat} {name : Bytes} {v : Value}
    (hi : positionOf columns name = some i)
    (hfilled : filled[i]? = some false) (hlt : i < result.length) (hv : input[k]? = some v) :
    placeValues columns input k result filled (name :: names) =
      placeValues columns input (k + 1) (result.set i v) (filled.set i true) names := by
  have hlt' : i < filled.length := (List.getElem?_eq_some_iff.mp hfilled).1
  conv_lhs => unfold placeValues
  simp only [hi, index_eq hfilled, index_eq hv, assign_eq hlt, assign_eq hlt']
  rfl

/-- The loop places the values, unless a name is unknown or comes twice. -/
theorem placeValues_spec {k : Nat} (h : Placed columns given result filled)
    (hlen : k + names.length ≤ input.length) :
    (Fresh columns given names ∧ ∃ result' filled',
      placeValues columns input k result filled names = .ok (result', filled') ∧
        Placed columns (fun i => (((names.map (positionOf columns)).zip (input.drop k)).lookup
          (some i)).or (given i)) result' filled') ∨
      (¬ Fresh columns given names ∧ ∃ e,
        placeValues columns input k result filled names = .error e) := by
  induction names generalizing k given result filled with
  | nil => exact .inl ⟨⟨List.forall_mem_nil _, .nil⟩, result, filled, rfl, h⟩
  | cons name names ih =>
    rw [List.length_cons] at hlen
    cases hi : positionOf columns name with
    | none =>
      refine .inr ⟨fun hf => ?_, placeValues_unknown hi⟩
      obtain ⟨i, hsome, -⟩ := hf.1 name List.mem_cons_self
      rw [hi] at hsome
      cases hsome
    | some i =>
      have hlt : i < columns.length := positionOf_lt hi
      have hk : k < input.length := by omega
      have hfilled := h.filled_iff i hlt
      cases hg : given i with
      | some v =>
        rw [hg] at hfilled
        refine .inr ⟨fun hf => ?_, placeValues_taken hi hfilled⟩
        have hnone := ((fresh_cons hi v).mp hf).1
        rw [hg] at hnone
        cases hnone
      | none =>
        rw [hg] at hfilled
        have hv : input[k]? = some input[k] := List.getElem?_eq_getElem hk
        rw [placeValues_free hi hfilled (by rw [h.result_length]; exact hlt) hv,
          fresh_cons hi input[k]]
        rcases ih (k := k + 1) (h.give i input[k]) (by omega) with
          ⟨hfresh, result', filled', heq, hplaced⟩ | ⟨hnot, herror⟩
        · refine .inl ⟨⟨hg, hfresh⟩, result', filled', heq, ?_⟩
          convert hplaced using 1
          funext j
          rw [List.drop_eq_getElem_cons hk, List.map_cons, List.zip_cons_cons, hi, List.lookup_cons,
            Function.update_apply]
          by_cases hj : j = i
          · subst hj
            rw [lookup_fresh hfresh (by simp)]
            simp
          · rw [if_neg hj, beq_false_of_ne (by simpa using hj)]
        · exact .inr ⟨fun hf => hnot hf.2, herror⟩

theorem Placed.setDefault (h : Placed columns given result filled) {i : Nat} (hi : given i = none)
    (v : Value) : Placed columns given (result.set i v) filled := by
  refine ⟨by rw [List.length_set, h.result_length], h.filled_length, h.filled_iff, ?_⟩
  intro j w hw hj
  rw [List.getElem?_set_ne, h.result_eq hw hj]
  rintro rfl
  rw [hi] at hw
  cases hw

/-- The loop over the columns fills up with defaults, unless one is missing. -/
theorem placeDefaults_spec {i : Nat} {rest : List Column} (h : Placed columns given result filled)
    (hrest : rest = columns.drop i)
    (hdone : ∀ {j c}, j < i → columns[j]? = some c → result[j]? = (given j).or c.default) :
    (∃ row, placeDefaults filled i result rest = .ok row ∧ Completed columns given row) ∨
      ((∃ j c, columns[j]? = some c ∧ (given j).or c.default = none) ∧
        ∃ e, placeDefaults filled i result rest = .error e) := by
  induction rest generalizing i result with
  | nil =>
    refine .inl ⟨result, rfl, h.result_length, ?_⟩
    intro j c hc
    apply hdone _ hc
    have hlen := List.drop_eq_nil_iff.mp hrest.symm
    exact lt_of_lt_of_le (List.getElem?_eq_some_iff.mp hc).1 hlen
  | cons column rest ih =>
    have hcolumn : columns[i]? = some column := by
      rw [← List.head?_drop, ← hrest]
      rfl
    have hlt : i < columns.length := (List.getElem?_eq_some_iff.mp hcolumn).1
    have htail : rest = columns.drop (i + 1) := by
      rw [← List.tail_drop, ← hrest]
      rfl
    have hfilled := h.filled_iff i hlt
    unfold placeDefaults
    rw [index_eq hfilled]
    cases hg : given i with
    | some v =>
      apply ih h htail
      intro j c hj hc
      rcases Nat.lt_succ_iff_lt_or_eq.mp hj with hj | rfl
      · exact hdone hj hc
      · rw [hg]
        exact h.result_eq hg hlt
    | none =>
      cases hd : column.default with
      | none =>
        refine .inr ⟨⟨i, column, hcolumn, ?_⟩, _, rfl⟩
        rw [hg, hd]
        rfl
      | some d =>
        have hassign := assign_eq (l := result) (i := i) (by rw [h.result_length]; exact hlt) d
        simp only [hassign]
        apply ih (h.setDefault hg d) htail
        intro j c hj hc
        rcases Nat.lt_succ_iff_lt_or_eq.mp hj with hj | rfl
        · rw [List.getElem?_set_ne (ne_of_gt hj)]
          exact hdone hj hc
        · rw [hcolumn] at hc
          cases hc
          rw [hg, hd, List.getElem?_set_self (by rw [h.result_length]; exact hlt)]
          rfl

/-- All columns have a default, or one that has none is an error. -/
theorem defaults_spec (columns : List Column) :
    (∃ values, columns.mapM defaultOf = .ok values ∧ values.map some = columns.map Column.default) ∨
      ((∃ c ∈ columns, c.default = none) ∧ ∃ e, columns.mapM defaultOf = .error e) := by
  induction columns with
  | nil => exact .inl ⟨[], rfl, rfl⟩
  | cons c columns ih =>
    rw [List.mapM_cons]
    cases hd : c.default with
    | none =>
      refine .inr ⟨⟨c, List.mem_cons_self, hd⟩, ?_⟩
      unfold defaultOf
      rw [hd]
      exact ⟨_, rfl⟩
    | some d =>
      have hdefault : defaultOf c = .ok d := by
        unfold defaultOf
        rw [hd]
      rw [hdefault]
      rcases ih with ⟨values, heq, hvalues⟩ | ⟨⟨c', hc', hnone⟩, e, heq⟩
      · refine .inl ⟨d :: values, ?_, ?_⟩
        · rw [heq]
          rfl
        · rw [List.map_cons, List.map_cons, hd, hvalues]
      · refine .inr ⟨⟨c', List.mem_cons_of_mem _ hc', hnone⟩, e, ?_⟩
        rw [heq]
        rfl

/-- `makeInsertRow` completes the row of an INSERT that it admits, unless a
column is left without value and default. -/
theorem makeInsertRow_spec (table : Table) (names : List Bytes) (input : Row) :
    (Admits table.columns names input ∧ ∃ row, makeInsertRow table names input = .ok row ∧
      Completed table.columns (supplied table.columns names input) row) ∨
      ((Admits table.columns names input → ∃ j c, table.columns[j]? = some c ∧
        (supplied table.columns names input j).or c.default = none) ∧
        ∃ e, makeInsertRow table names input = .error e) := by
  unfold makeInsertRow supplied
  by_cases hnames : names = []
  · subst hnames
    simp only [if_true]
    by_cases hlen : input.length > table.columns.length
    · rw [if_pos hlen]
      exact .inr ⟨fun h => absurd (h.positional rfl) (by omega), _, rfl⟩
    · have hadmits : Admits table.columns [] input :=
        ⟨fun _ => by omega, fun h => absurd rfl h, List.forall_mem_nil _, .nil⟩
      rw [if_neg hlen]
      rcases defaults_spec (table.columns.drop input.length) with
        ⟨values, heq, hvalues⟩ | ⟨⟨c, hc, hnone⟩, e, heq⟩
      · refine .inl ⟨hadmits, input ++ values, by rw [heq]; rfl, ?_, ?_⟩
        · have hcount := congrArg List.length hvalues
          simp only [List.length_map, List.length_drop] at hcount
          rw [List.length_append]
          omega
        · intro i c hc
          by_cases hi : i < input.length
          · rw [List.getElem?_append_left hi, List.getElem?_eq_getElem hi]
            rfl
          · have hvalue := congrArg (fun l => l[i - input.length]?) hvalues
            simp only [List.getElem?_map, List.getElem?_drop] at hvalue
            rw [Nat.add_sub_cancel' (by omega), hc] at hvalue
            have hout : input[i]? = none := List.getElem?_eq_none (by omega)
            obtain ⟨v, hv, hd⟩ := Option.map_eq_some_iff.mp hvalue
            rw [List.getElem?_append_right (by omega), hv, hout]
            exact hd
      · refine .inr ⟨fun _ => ?_, e, by rw [heq]; rfl⟩
        obtain ⟨j, hj⟩ := List.mem_iff_getElem?.mp hc
        rw [List.getElem?_drop] at hj
        refine ⟨_, c, hj, ?_⟩
        rw [List.getElem?_eq_none (by omega), hnone]
        rfl
  · rw [if_neg hnames]
    by_cases hlen : names.length ≠ input.length
    · rw [if_pos hlen]
      exact .inr ⟨fun h => absurd (h.length hnames) hlen, _, rfl⟩
    · have hlen : names.length = input.length := not_not.mp hlen
      rw [if_neg (not_not.mpr hlen)]
      simp only [if_neg hnames]
      have hcount : 0 + names.length ≤ input.length := by omega
      rcases placeValues_spec (placed_start table.columns) hcount with
        ⟨hfresh, result, filled, heq, hplaced⟩ | ⟨hnot, e, heq⟩
      · have hadmits : Admits table.columns names input := by
          refine ⟨fun h => absurd h hnames, fun _ => hlen, ?_, hfresh.2⟩
          intro name hname
          obtain ⟨i, hi, -⟩ := hfresh.1 name hname
          exact ⟨i, hi⟩
        simp only [List.drop_zero, Option.or_none] at hplaced
        simp only [heq]
        rcases placeDefaults_spec (i := 0) hplaced rfl
          (fun hj => absurd hj (Nat.not_lt_zero _)) with
          ⟨row, hrow, hcompleted⟩ | ⟨hmissing, e, herror⟩
        · exact .inl ⟨hadmits, row, hrow, hcompleted⟩
        · exact .inr ⟨fun _ => hmissing, e, herror⟩
      · simp only [heq]
        refine .inr ⟨fun h => absurd ⟨?_, h.once⟩ hnot, e, rfl⟩
        intro name hname
        obtain ⟨i, hi⟩ := h.known name hname
        exact ⟨i, hi, rfl⟩

/-- An INSERT makes exactly the row with the given values and otherwise defaults. -/
theorem makeInsertRow_ok_iff : makeInsertRow table names input = .ok row ↔
    Admits table.columns names input ∧
      Completed table.columns (supplied table.columns names input) row := by
  rcases makeInsertRow_spec table names input with
    ⟨hadmits, row', heq, hcompleted⟩ | ⟨hmissing, e, heq⟩
  · rw [heq]
    constructor
    · intro h
      cases h
      exact ⟨hadmits, hcompleted⟩
    · intro h
      rw [h.2.unique hcompleted]
  · rw [heq]
    constructor
    · intro h
      cases h
    · rintro ⟨hadmits, hcompleted⟩
      obtain ⟨j, c, hc, hnone⟩ := hmissing hadmits
      have hvalue := hcompleted.values hc
      have hlt := (List.getElem?_eq_some_iff.mp hc).1
      rw [hnone, List.getElem?_eq_none_iff, hcompleted.length] at hvalue
      omega

def SameOutcome (a b : Outcome Row) : Prop :=
  (∃ row, a = .ok row ∧ b = .ok row) ∨ ∃ e e', a = .error (.error e) ∧ b = .error (.error e')

theorem sameOutcome_of_ok_iff {a b : Outcome Row} (h : ∀ row, a = .ok row ↔ b = .ok row)
    (ha : Ordinary (fun _ => True) a) (hb : Ordinary (fun _ => True) b) : SameOutcome a b := by
  cases a with
  | ok row => exact .inl ⟨row, rfl, (h row).mp rfl⟩
  | error f =>
    cases f with
    | panic m => exact ha.elim
    | error e =>
      cases b with
      | ok row => cases (h row).mpr rfl
      | error f =>
        cases f with
        | panic m => exact hb.elim
        | error e' => exact .inr ⟨e, e', rfl, rfl⟩

def insertPairs (table : Table) (pairs : List (Bytes × Value)) : Outcome Row :=
  makeInsertRow table (pairs.map Prod.fst) (pairs.map Prod.snd)

/-- Among pairs with distinct keys the order does not matter. -/
theorem lookup_perm {α β : Type} [BEq α] [LawfulBEq α] {l l' : List (α × β)} (h : l.Perm l')
    (hnodup : (l.map Prod.fst).Nodup) (a : α) : l.lookup a = l'.lookup a := by
  induction h with
  | nil => rfl
  | cons p h ih =>
    rw [List.lookup_cons, List.lookup_cons, ih (List.nodup_cons.mp hnodup).2]
  | swap p q l =>
    rw [List.lookup_cons, List.lookup_cons, List.lookup_cons, List.lookup_cons]
    have hne : q.1 ≠ p.1 := by
      intro heq
      rw [List.map_cons, List.map_cons, heq] at hnodup
      exact (List.nodup_cons.mp hnodup).1 List.mem_cons_self
    by_cases hp : a == p.1
    · have hq : (a == q.1) = false := beq_false_of_ne (by rw [eq_of_beq hp]; exact hne.symm)
      simp [hp, hq]
    · simp [hp]
  | trans h₁ h₂ ih₁ ih₂ =>
    rw [ih₁ hnodup, ih₂ ((h₁.map Prod.fst).nodup_iff.mp hnodup)]

theorem positionOf_name {name : Bytes} {i : Nat} (h : positionOf columns name = some i) :
    ∃ c, columns[i]? = some c ∧ c.name = name := by
  obtain ⟨⟨c, j⟩, hc, rfl⟩ := Option.map_eq_some_iff.mp h
  have hmem := List.mem_reverse.mp (List.mem_of_find?_eq_some hc)
  refine ⟨c, List.mem_zipIdx_iff_getElem?.mp hmem, ?_⟩
  simpa using List.find?_some hc

theorem positionOf_known {c : Column} (hc : c ∈ columns) :
    ∃ i, positionOf columns c.name = some i := by
  obtain ⟨i, hi⟩ := List.mem_iff_getElem?.mp hc
  have hfound : (columns.zipIdx.reverse.find? (fun d => decide (d.1.name = c.name))).isSome := by
    rw [List.find?_isSome]
    exact ⟨(c, i), List.mem_reverse.mpr (List.mem_zipIdx_iff_getElem?.mpr hi), by simp⟩
  obtain ⟨d, hd⟩ := Option.isSome_iff_exists.mp hfound
  exact ⟨d.2, by rw [positionOf, hd]; rfl⟩

/-- Where no two columns have the same name, a name has the place of its
column. -/
theorem positionOf_eq (hnodup : (columns.map Column.name).Nodup) {i : Nat} {c : Column}
    (hi : columns[i]? = some c) : positionOf columns c.name = some i := by
  obtain ⟨j, hj⟩ := positionOf_known (List.mem_of_getElem? hi)
  obtain ⟨d, hd, hname⟩ := positionOf_name hj
  have hlt : i < (columns.map Column.name).length := by
    rw [List.length_map]
    exact (List.getElem?_eq_some_iff.mp hi).1
  have heq : (columns.map Column.name)[i]? = (columns.map Column.name)[j]? := by
    rw [List.getElem?_map, List.getElem?_map, hi, hd]
    exact congrArg some hname.symm
  rw [hj, (List.getElem?_inj hlt hnodup).mp heq]

theorem supplied_pairs (columns : List Column) {pairs : List (Bytes × Value)}
    (hpairs : pairs ≠ []) (i : Nat) :
    supplied columns (pairs.map Prod.fst) (pairs.map Prod.snd) i =
      (pairs.map (fun p => (positionOf columns p.1, p.2))).lookup (some i) := by
  have hnames : pairs.map Prod.fst ≠ [] := by simpa using hpairs
  unfold supplied
  rw [if_neg hnames, List.map_map, List.zip_map']
  rfl

/-- Values by names are taken when the names are known and no two mean one column. -/
theorem admits_pairs {pairs : List (Bytes × Value)} :
    Admits columns (pairs.map Prod.fst) (pairs.map Prod.snd) ↔
      (∀ p ∈ pairs, ∃ i, positionOf columns p.1 = some i) ∧
        (pairs.map (fun p => positionOf columns p.1)).Nodup := by
  constructor
  · intro h
    refine ⟨fun p hp => h.known p.1 (List.mem_map_of_mem hp), ?_⟩
    have honce := h.once
    rw [List.map_map] at honce
    exact honce
  · rintro ⟨hknown, honce⟩
    refine ⟨?_, fun _ => by simp, ?_, ?_⟩
    · intro hnil
      simp [List.map_eq_nil_iff.mp hnil]
    · intro name hname
      obtain ⟨p, hp, rfl⟩ := List.mem_map.mp hname
      exact hknown p hp
    · rw [List.map_map]
      exact honce

/-- The order of the names does not matter. -/
theorem insertPairs_perm {pairs pairs' : List (Bytes × Value)} (h : pairs.Perm pairs') :
    insertPairs table pairs = .ok row → insertPairs table pairs' = .ok row := by
  unfold insertPairs
  rw [makeInsertRow_ok_iff, makeInsertRow_ok_iff, admits_pairs, admits_pairs]
  rintro ⟨⟨hknown, honce⟩, hrow⟩
  refine ⟨⟨fun p hp => hknown p (h.mem_iff.mpr hp), (h.map _).nodup_iff.mp honce⟩, ?_⟩
  by_cases hpairs : pairs = []
  · rw [hpairs] at h hrow
    rw [h.nil_eq.symm]
    exact hrow
  · have hpairs' : pairs' ≠ [] := fun hnil => hpairs (hnil ▸ h).eq_nil
    have hsame : supplied table.columns (pairs.map Prod.fst) (pairs.map Prod.snd) =
        supplied table.columns (pairs'.map Prod.fst) (pairs'.map Prod.snd) := by
      funext i
      rw [supplied_pairs _ hpairs, supplied_pairs _ hpairs']
      apply lookup_perm (h.map _)
      rw [List.map_map]
      exact honce
    rw [← hsame]
    exact hrow

theorem makeInsertRow_returns (table : Table) (names : List Bytes) (input : Row) :
    Ordinary (fun _ => True) (makeInsertRow table names input) :=
  (@makeInsertRow_ordinary (fun _ => True) (fun _ _ => trivial) table (fun _ _ _ _ => trivial) names
    input (fun _ _ => trivial)).mono (fun _ _ => trivial)

theorem lookup_zip {α β : Type} [BEq α] [LawfulBEq α] {ks : List α} {vs : List β} {i : Nat} {k : α}
    (hnodup : ks.Nodup) (hi : ks[i]? = some k) : (ks.zip vs).lookup k = vs[i]? := by
  induction ks generalizing vs i with
  | nil => cases hi
  | cons a ks ih =>
    obtain ⟨hnotin, hnodup⟩ := List.nodup_cons.mp hnodup
    cases vs with
    | nil => rfl
    | cons v vs =>
      cases i with
      | zero =>
        cases hi
        exact List.lookup_cons_self
      | succ i =>
        have hne : k ≠ a := by
          rintro rfl
          exact hnotin (List.mem_of_getElem? hi)
        rw [List.zip_cons_cons, List.lookup_cons, beq_false_of_ne hne]
        exact ih hnodup hi

/-- Naming the first columns in their order gives them the same values. -/
theorem supplied_first (hnodup : (columns.map Column.name).Nodup) (hinput : input ≠ [])
    (hlen : input.length ≤ columns.length) :
    Admits columns ((columns.take input.length).map Column.name) input ∧
      supplied columns ((columns.take input.length).map Column.name) input =
      supplied columns [] input := by
  have hpos : 0 < input.length := List.length_pos_of_ne_nil hinput
  have hnames : (columns.take input.length).map Column.name ≠ [] := by
    apply List.ne_nil_of_length_pos
    rw [List.length_map, List.length_take]
    omega
  have hplaces : ((columns.take input.length).map Column.name).map (positionOf columns) =
      (List.range input.length).map some := by
    apply List.ext_getElem
    · simp [hlen]
    · intro i hi hi'
      have hlt : i < columns.length := by
        simp only [List.length_map, List.length_take] at hi
        omega
      simp only [List.getElem_map, List.getElem_take, List.getElem_range]
      exact positionOf_eq hnodup (List.getElem?_eq_getElem hlt)
  have honce : ((List.range input.length).map some).Nodup :=
    List.nodup_range.map (Option.some_injective _)
  refine ⟨⟨fun h => absurd h hnames, fun _ => by simp [hlen], ?_, hplaces ▸ honce⟩, ?_⟩
  · intro name hname
    obtain ⟨c, hc, rfl⟩ := List.mem_map.mp hname
    exact positionOf_known (List.mem_of_mem_take hc)
  · funext i
    unfold supplied
    rw [if_neg hnames, if_pos rfl, hplaces]
    by_cases hi : i < input.length
    · apply lookup_zip honce
      rw [List.getElem?_map, List.getElem?_range hi]
      rfl
    · rw [List.getElem?_eq_none (by omega)]
      apply List.lookup_eq_none_iff.mpr
      intro p hp
      apply bne_iff_ne.mpr
      intro heq
      obtain ⟨j, hj, hsome⟩ := List.mem_map.mp (List.of_mem_zip hp).1
      rw [← heq] at hsome
      cases hsome
      exact hi (List.mem_range.mp hj)

/-- Among the pairs of an INSERT a column finds its own. -/
theorem supplied_name (hnodup : (columns.map Column.name).Nodup) {pairs : List (Bytes × Value)}
    (hadmits : Admits columns (pairs.map Prod.fst) (pairs.map Prod.snd)) {i : Nat} {c : Column}
    (hc : columns[i]? = some c) {v : Value} (hpair : (c.name, v) ∈ pairs) :
    supplied columns (pairs.map Prod.fst) (pairs.map Prod.snd) i = some v := by
  obtain ⟨j, hj⟩ := List.mem_iff_getElem?.mp hpair
  have hnames : pairs.map Prod.fst ≠ [] := by
    rintro hnil
    rw [List.map_eq_nil_iff.mp hnil] at hpair
    cases hpair
  unfold supplied
  rw [if_neg hnames, lookup_zip (i := j) hadmits.once, List.getElem?_map, hj]
  · rfl
  · rw [List.getElem?_map, List.getElem?_map, hj]
    exact congrArg some (positionOf_eq hnodup hc)

/-- A column that is not named is given nothing. -/
theorem supplied_other {pairs : List (Bytes × Value)} {i : Nat} {c : Column}
    (hc : columns[i]? = some c) (hother : c.name ∉ pairs.map Prod.fst) :
    supplied columns (pairs.map Prod.fst) (pairs.map Prod.snd) i = none := by
  by_cases hpairs : pairs = []
  · subst hpairs
    rfl
  · rw [supplied_pairs columns hpairs]
    apply List.lookup_eq_none_iff.mpr
    intro q hq
    apply bne_iff_ne.mpr
    intro heq
    obtain ⟨p, hp, rfl⟩ := List.mem_map.mp hq
    obtain ⟨d, hd, hname⟩ := positionOf_name heq.symm
    rw [hc] at hd
    cases hd
    exact hother (List.mem_map.mpr ⟨p, hp, hname.symm⟩)

/-- With distinct column names the order of the named columns does not matter,
naming the first columns is the same as giving no names, and every column has
the value that is given under its name, or else its default. -/
theorem insert_forms_agree (hnodup : (table.columns.map Column.name).Nodup) :
    (∀ pairs pairs' : List (Bytes × Value), pairs.Perm pairs' →
      SameOutcome (insertPairs table pairs) (insertPairs table pairs')) ∧
    (∀ input : Row, 1 ≤ input.length → input.length ≤ table.columns.length →
      SameOutcome (makeInsertRow table [] input)
        (makeInsertRow table ((table.columns.take input.length).map Column.name) input)) ∧
    ∀ (pairs : List (Bytes × Value)) (row : Row), insertPairs table pairs = .ok row →
    row.length = table.columns.length ∧
      ∀ (i : Nat) (c : Column), table.columns[i]? = some c →
      (∀ v, (c.name, v) ∈ pairs → row[i]? = some v) ∧
        (c.name ∉ pairs.map Prod.fst → row[i]? = c.default) := by
  refine ⟨?_, ?_, ?_⟩
  · intro pairs pairs' hperm
    apply sameOutcome_of_ok_iff _ (makeInsertRow_returns _ _ _) (makeInsertRow_returns _ _ _)
    exact fun row => ⟨insertPairs_perm hperm, insertPairs_perm hperm.symm⟩
  · intro input hpos hlen
    apply sameOutcome_of_ok_iff _ (makeInsertRow_returns _ _ _) (makeInsertRow_returns _ _ _)
    intro row
    obtain ⟨hadmits, hsame⟩ := supplied_first hnodup (List.ne_nil_of_length_pos hpos) hlen
    have hadmits' : Admits table.columns [] input :=
      ⟨fun _ => hlen, fun h => absurd rfl h, List.forall_mem_nil _, .nil⟩
    rw [makeInsertRow_ok_iff, makeInsertRow_ok_iff, hsame]
    exact ⟨fun h => ⟨hadmits, h.2⟩, fun h => ⟨hadmits', h.2⟩⟩
  · intro pairs row hrow
    obtain ⟨hadmits, hcompleted⟩ := makeInsertRow_ok_iff.mp hrow
    refine ⟨hcompleted.length, fun i c hc => ⟨?_, ?_⟩⟩
    · intro v hpair
      rw [hcompleted.values hc, supplied_name hnodup hadmits hc hpair]
      rfl
    · intro hother
      rw [hcompleted.values hc, supplied_other hc hother]
      rfl

def dataColumn (name : String) (default : Option Value) (nullable : Bool) : Column :=
  ⟨ascii name, .integer, nullable, default, false⟩

def threeColumns : Table :=
  ⟨ascii "t", [⟨ascii "a", .integer, false, none, true⟩,
    dataColumn "b" (some .null) true, dataColumn "c" (some (.integer ⟨5, by decide⟩)) false]⟩

theorem insert_forms_agree_three :
    SameOutcome
      (insertPairs threeColumns
        [(ascii "a", .integer ⟨1, by decide⟩), (ascii "c", .integer ⟨2, by decide⟩)])
      (insertPairs threeColumns
        [(ascii "c", .integer ⟨2, by decide⟩), (ascii "a", .integer ⟨1, by decide⟩)]) ∧
    insertPairs threeColumns [(ascii "c", .integer ⟨2, by decide⟩),
      (ascii "a", .integer ⟨1, by decide⟩)] =
      .ok [.integer ⟨1, by decide⟩, .null, .integer ⟨2, by decide⟩] := by
  have hnodup : (threeColumns.columns.map Column.name).Nodup := by decide
  exact ⟨(insert_forms_agree hnodup).1 _ _ (List.Perm.swap _ _ _), by decide⟩

def FitsColumn (c : Column) (v : Value) : Prop :=
  match v.dataType with
  | none => c.nullable = true
  | some type => type = c.dataType

theorem validateValues_cons {i : Nat} {column : Column} {v : Value} (hv : row[i]? = some v) :
    validateValues row i (column :: columns) = .ok () ↔
      FitsColumn column v ∧ validateValues row (i + 1) columns = .ok () := by
  rw [validateValues, index_eq hv, FitsColumn]
  change (match v.dataType with | none => _ | some actualType => _) = _ ↔ _
  cases v.dataType with
  | none =>
    cases hnull : column.nullable with
    | true => simp
    | false => simp [fault]
  | some type =>
    by_cases htype : type = column.dataType
    · simp [htype]
    · simp [htype, fault]

/-- `validateRow` accepts the rows whose values fit their columns. -/
theorem validateValues_ok_iff {i : Nat} (hlen : i + columns.length = row.length) :
    validateValues row i columns = .ok () ↔
      ∀ (j : Nat) c v, columns[j]? = some c → row[i + j]? = some v → FitsColumn c v := by
  induction columns generalizing i with
  | nil => exact iff_of_true rfl (fun j c v hc => by cases hc)
  | cons column columns ih =>
    rw [List.length_cons] at hlen
    have hlt : i < row.length := by omega
    have hrest : validateValues row (i + 1) columns = .ok () ↔
        ∀ (j : Nat) c v, columns[j]? = some c → row[i + 1 + j]? = some v →
        FitsColumn c v := ih (by omega)
    have hstep : (∀ (j : Nat) c v, (column :: columns)[j]? = some c → row[i + j]? = some v →
        FitsColumn c v) ↔
        FitsColumn column row[i] ∧ ∀ (j : Nat) c v, columns[j]? = some c →
        row[i + 1 + j]? = some v → FitsColumn c v := by
      constructor
      · intro h
        refine ⟨h 0 column row[i] rfl (List.getElem?_eq_getElem hlt), fun j c v hc hv => ?_⟩
        apply h (j + 1) c v hc
        rw [← hv]
        congr 1
        omega
      · rintro ⟨hfirst, h⟩ j c v hc hv
        cases j with
        | zero =>
          rw [Nat.add_zero, List.getElem?_eq_getElem hlt] at hv
          cases hc
          cases hv
          exact hfirst
        | succ j =>
          apply h j c v hc
          rw [← hv]
          congr 1
          omega
    rw [hstep, ← hrest]
    exact validateValues_cons (List.getElem?_eq_getElem hlt)

/-- A row is valid when every value fits its column. -/
theorem validateRow_ok_iff : validateRow table row = .ok () ↔
    row.length = table.columns.length ∧
      ∀ (i : Nat) c v, table.columns[i]? = some c → row[i]? = some v → FitsColumn c v := by
  unfold validateRow
  by_cases hlen : row.length ≠ table.columns.length
  · rw [if_pos hlen]
    exact iff_of_false (by simp [fault]) (fun h => hlen h.1)
  · have hlen : row.length = table.columns.length := not_not.mp hlen
    rw [if_neg (not_not.mpr hlen), validateValues_ok_iff (by omega)]
    simp only [Nat.zero_add]
    exact ⟨fun h => ⟨hlen, h⟩, fun h => h.2⟩

structure ValidColumn (c : Column) : Prop where
  key : c.primaryKey = true → c.nullable = false
  default : ∀ {v type}, c.default = some v → v.dataType = some type → type = c.dataType

/-- What the loop over the columns has checked when it ends well. -/
theorem validateColumns_ok {name : Bytes} {n k : Nat}
    (h : Table.validateColumns name n columns = .ok k) :
    (∀ c ∈ columns, ValidColumn c) ∧ k = n + columns.countP (fun c => c.primaryKey) := by
  induction columns generalizing n with
  | nil =>
    cases h
    exact ⟨List.forall_mem_nil _, rfl⟩
  | cons c columns ih =>
    rw [Table.validateColumns] at h
    by_cases hkey : (c.primaryKey && c.nullable) = true
    · rw [if_pos hkey] at h
      cases h
    rw [if_neg hkey] at h
    have hnull : c.primaryKey = true → c.nullable = false := by
      intro hprimary
      simpa [hprimary] using hkey
    have hrest : ∀ {m}, m = (if c.primaryKey then n + 1 else n) →
        Table.validateColumns name m columns = .ok k → ValidColumn c →
        (∀ c' ∈ c :: columns, ValidColumn c') ∧
          k = n + (c :: columns).countP (fun c => c.primaryKey) := by
      intro m hm hloop hvalid
      obtain ⟨hcolumns, hcount⟩ := ih hloop
      refine ⟨List.forall_mem_cons.mpr ⟨hvalid, hcolumns⟩, ?_⟩
      rw [hcount, hm, List.countP_cons]
      split_ifs <;> omega
    dsimp only at h
    split at h
    next htype =>
      apply hrest rfl h
      refine ⟨hnull, fun hv htyped => ?_⟩
      rw [hv, Option.bind_some, htyped] at htype
      cases htype
    next type htype =>
      by_cases hsame : type ≠ c.dataType
      · rw [if_pos hsame] at h
        cases h
      rw [if_neg hsame] at h
      apply hrest rfl h
      refine ⟨hnull, fun hv htyped => ?_⟩
      rw [hv, Option.bind_some, htyped] at htype
      cases htype
      exact not_not.mp hsame

/-- A table that `Validate` accepts has a name and one primary key. -/
structure ValidTable (table : Table) : Prop where
  named : table.name ≠ []
  columns : ∀ c ∈ table.columns, ValidColumn c
  key : table.columns.countP (fun c => c.primaryKey) = 1

theorem validate_ok (h : table.validate = .ok ()) : ValidTable table := by
  unfold Table.validate at h
  split_ifs at h with hname hcolumns
  · cases h
  · cases h
  · obtain ⟨k, hk, h⟩ := outcome_bind_ok h
    obtain ⟨hvalid, hcount⟩ := validateColumns_ok hk
    refine ⟨hname, hvalid, ?_⟩
    split at h
    · cases h
    · omega
    · cases h

/-- `validateRow` accepts a row that `makeInsertRow` has completed, exactly when
no column of the ones without a value is NOT NULL with the default NULL. -/
theorem defaults_accepted_iff (hvalid : table.validate = .ok ())
    (hfits : ∀ i c v, table.columns[i]? = some c →
      supplied table.columns names input i = some v → FitsColumn c v)
    (hrow : makeInsertRow table names input = .ok row) :
    validateRow table row = .ok () ↔ ∀ i c, table.columns[i]? = some c →
      supplied table.columns names input i = none →
      ¬ (c.nullable = false ∧ c.default = some .null) := by
  obtain ⟨-, hcompleted⟩ := makeInsertRow_ok_iff.mp hrow
  have htable := validate_ok hvalid
  rw [validateRow_ok_iff]
  constructor
  · rintro ⟨-, hvalues⟩ i c hc hnone ⟨hnull, hdefault⟩
    have hvalue := hcompleted.values hc
    rw [hnone, hdefault] at hvalue
    have hallowed : c.nullable = true := hvalues i c .null hc hvalue
    rw [hnull] at hallowed
    cases hallowed
  · intro h
    refine ⟨hcompleted.length, fun i c v hc hv => ?_⟩
    have hvalue := hcompleted.values hc
    rw [hv] at hvalue
    cases hgiven : supplied table.columns names input i with
    | some w =>
      rw [hgiven] at hvalue
      cases hvalue
      exact hfits i c v hc hgiven
    | none =>
      rw [hgiven, Option.none_or] at hvalue
      have hno := h i c hc hgiven
      unfold FitsColumn
      cases htype : v.dataType with
      | none =>
        have hnull : v = .null := by
          cases v with
          | null => rfl
          | _ => cases htype
        rw [hnull] at hvalue
        by_contra hnot
        exact hno ⟨Bool.eq_false_of_not_eq_true hnot, hvalue.symm⟩
      | some type => exact (htable.columns c (List.mem_of_getElem? hc)).default hvalue.symm htype

theorem defaults_accepted_iff_three :
    makeInsertRow threeColumns [] [.integer ⟨1, by decide⟩] =
      .ok [.integer ⟨1, by decide⟩, .null, .integer ⟨5, by decide⟩] ∧
    validateRow threeColumns [.integer ⟨1, by decide⟩, .null,
      .integer ⟨5, by decide⟩] = .ok () := by
  have hrow : makeInsertRow threeColumns [] [.integer ⟨1, by decide⟩] =
      .ok [.integer ⟨1, by decide⟩, .null, .integer ⟨5, by decide⟩] := by decide
  refine ⟨hrow, (defaults_accepted_iff (by decide) ?_ hrow).mpr ?_⟩
  · intro i c v hc hv
    obtain ⟨hi, rfl⟩ := List.getElem?_eq_some_iff.mp hv
    have hzero : i = 0 := Nat.lt_one_iff.mp hi
    subst hzero
    cases hc
    rfl
  · intro i c hc _
    have hall : ∀ c ∈ threeColumns.columns, ¬ (c.nullable = false ∧ c.default = some .null) := by
      decide
    exact hall c (List.mem_of_getElem? hc)

/-- A NOT NULL column may have the default NULL, and then the row that is
completed with it is refused. -/
theorem null_default_refused : ∃ s table row,
    parse (ascii "CREATE TABLE t (a INT PRIMARY KEY, b INT NOT NULL DEFAULT NULL);") =
      .ok (.createTable s) ∧
    tableFromCreateStatement s = .ok table ∧ table.validate = .ok () ∧
    makeInsertRow table [] [.integer ⟨1, by decide⟩] = .ok row ∧
    validateRow table row ≠ .ok () := by
  refine ⟨⟨ascii "t", [⟨ascii "a", .integer, none, none, true⟩,
    ⟨ascii "b", .integer, some false, some ⟨.null, .nil⟩, false⟩]⟩,
    ⟨ascii "t", [⟨ascii "a", .integer, false, none, true⟩, dataColumn "b" (some .null) false]⟩,
    [.integer ⟨1, by decide⟩, .null], ?_, ?_, ?_, ?_, ?_⟩
  · decide +kernel
  · decide
  · decide
  · decide
  · decide

end SpaceDB.Proofs
