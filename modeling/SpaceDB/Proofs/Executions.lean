import SpaceDB.Proofs.Queries

namespace SpaceDB.Proofs
open Lib Storage Sql

def HasRows (P : List Bytes → List Row → Prop) (r : ResultSet) : Prop :=
  ∃ columns rows, r = .rows columns rows ∧ P columns rows

/-- The kind of result that a node has. The rows of a query are as wide as its
columns. -/
def Fits : Node → ResultSet → Prop
  | .createTable _, .createTable _ => True
  | .insert _ _ _, .insert _ => True
  | .update _ _ _, .update _ => True
  | .delete _ _, .delete _ => True
  | .createTable _, _ | .insert _ _ _, _ | .update _ _ _, _ | .delete _ _, _ => False
  | _, r => HasRows Wide r

def hasJoin : Node → Bool
  | .nestedLoopJoin _ _ _ _ => true
  | .filter source _ | .order source _ | .limit source _ | .offset source _
  | .projection source _ | .aggregate source _ _ => hasJoin source
  | _ => false

def JoinPanic (node : Node) (message : String) : Prop :=
  hasJoin node = true ∧ message = capOutOfRange

section Inserts
variable {good : Value → Prop}

theorem insertValues_ordinary (hplain : ∀ v, Plain v → good v) (rowIdx : Nat) {i : Nat}
    {es : List Expression} (h : ∀ e ∈ es, Operand e) :
    Ordinary (fun row => ∀ v ∈ row, good v) (insertValues rowIdx i es) := by
  induction es generalizing i with
  | nil => exact List.forall_mem_nil _
  | cons e es ih =>
    obtain ⟨he, hes⟩ := List.forall_mem_cons.mp h
    refine (ordinary_value he).wrap.bind (fun v hv => (ih hes).bind (fun row hrow => ?_))
    exact List.forall_mem_cons.mpr ⟨hplain v hv, hrow⟩

theorem positionOf_lt {columns : List Column} {name : Bytes} {i : Nat}
    (h : positionOf columns name = some i) : i < columns.length := by
  obtain ⟨c, hc, rfl⟩ := Option.map_eq_some_iff.mp h
  have hmem := List.mem_reverse.mp (List.mem_of_find?_eq_some hc)
  simpa using (List.mem_zipIdx hmem).2.1

structure Building (good : Value → Prop) (n : Nat) (row : Row) (filled : List Bool) : Prop where
  width : row.length = n
  flags : filled.length = n
  values : ∀ v ∈ row, good v

theorem assign_good {row : Row} {i : Nat} {v : Value} (hi : i < row.length)
    (hrow : ∀ v ∈ row, good v) (hv : good v) :
    Ordinary (fun r => r.length = row.length ∧ ∀ v ∈ r, good v) (assign row i v) := by
  refine (ordinary_assign hi).mono (fun r hr => ⟨hr.1, ?_⟩)
  intro w hw
  rcases hr.2 w hw with rfl | hw
  · exact hv
  · exact hrow w hw

/-- Given values that go to their columns keep the row well built. -/
theorem placeValues_ordinary {columns : List Column} {input : Row} (hinput : ∀ v ∈ input, good v)
    {names : List Bytes} {i : Nat} (hi : i + names.length ≤ input.length) {row : Row}
    {filled : List Bool} (h : Building good columns.length row filled) :
    Ordinary (fun r => Building good columns.length r.1 r.2)
      (placeValues columns input i row filled names) := by
  induction names generalizing i row filled with
  | nil => exact h
  | cons name names ih =>
    have hlast : i + (names.length + 1) ≤ input.length := hi
    unfold placeValues
    split
    · exact ordinary_fault _ _
    next k hk =>
      have hk : k < columns.length := positionOf_lt hk
      refine (ordinary_index (h.flags.symm ▸ hk)).bind (fun done _ => ?_)
      cases done with
      | true => exact ordinary_fault _ _
      | false =>
        refine (ordinary_index (by omega)).bind (fun v hv => ?_)
        refine (assign_good (h.width.symm ▸ hk) h.values (hinput v hv)).bind (fun r hr => ?_)
        refine (ordinary_assign (h.flags.symm ▸ hk)).bind (fun flags hflags => ?_)
        apply ih (by omega)
        exact ⟨hr.1.trans h.width, hflags.1.trans h.flags, hr.2⟩

/-- Where a default is missing, that is an error and no panic. -/
theorem placeDefaults_ordinary {n : Nat} {filled : List Bool} {columns : List Column}
    (hcolumns : ∀ c ∈ columns, Given good c.default) {i : Nat} (hi : i + columns.length = n)
    {row : Row} (h : Building good n row filled) :
    Ordinary (fun r => ∀ v ∈ r, good v) (placeDefaults filled i row columns) := by
  induction columns generalizing i row with
  | nil => exact h.values
  | cons column columns ih =>
    obtain ⟨hcolumn, hrest⟩ := List.forall_mem_cons.mp hcolumns
    have hlast : i + (columns.length + 1) = n := hi
    have hlt : i < n := by omega
    refine (ordinary_index (h.flags.symm ▸ hlt)).bind (fun done _ => ?_)
    cases done with
    | true => exact ih hrest (by omega) h
    | false =>
      simp only [Bool.false_eq_true, if_false]
      split
      · exact ordinary_fault _ _
      next v hv =>
        refine (assign_good (h.width.symm ▸ hlt) h.values (hcolumn v hv)).bind (fun r hr => ?_)
        apply ih hrest (by omega)
        exact ⟨hr.1.trans h.width, h.flags, hr.2⟩

/-- A row is made of given values and defaults only. -/
theorem makeInsertRow_ordinary (hplain : ∀ v, Plain v → good v) {table : Table}
    (htable : ∀ c ∈ table.columns, Given good c.default) (names : List Bytes) {input : Row}
    (hinput : ∀ v ∈ input, good v) :
    Ordinary (fun row => ∀ v ∈ row, good v) (makeInsertRow table names input) := by
  unfold makeInsertRow
  by_cases hnames : names = []
  · rw [if_pos hnames]
    by_cases hmany : input.length > table.columns.length
    · rw [if_pos hmany]
      exact ordinary_fault _ _
    · rw [if_neg hmany]
      have hdefault : ∀ c ∈ table.columns.drop input.length, Ordinary good (defaultOf c) := by
        intro c hc
        unfold defaultOf
        split
        · exact ordinary_fault _ _
        next v hv => exact htable c (List.mem_of_mem_drop hc) v hv
      refine (ordinary_mapM hdefault).bind (fun row hrow => ?_)
      exact List.forall_mem_append.mpr ⟨hinput, hrow.2⟩
  · rw [if_neg hnames]
    by_cases hcount : names.length ≠ input.length
    · rw [if_pos hcount]
      exact ordinary_fault _ _
    · rw [if_neg hcount]
      have hstart : Building good table.columns.length (.replicate table.columns.length .null)
          (.replicate table.columns.length false) := by
        refine ⟨List.length_replicate, List.length_replicate, ?_⟩
        intro v hv
        rw [List.eq_of_mem_replicate hv]
        exact hplain _ trivial
      refine (placeValues_ordinary hinput (by omega) hstart).bind (fun r hr => ?_)
      exact placeDefaults_ordinary htable (by omega) hr

end Inserts

theorem resolveAssignment_ordinary {table : Table} {assignment : Bytes × Expression}
    (h : Operand assignment.2) :
    Ordinary (fun a => a.1 < table.columns.length ∧ Plain a.2)
      (resolveAssignment table assignment) := by
  have hindex : Ordinary (· < table.columns.length) (table.columnIndex assignment.1) := by
    unfold Table.columnIndex
    split
    next i hi => exact (List.findIdx?_eq_some_iff_getElem.mp hi).1
    · exact ordinary_fault _ _
  refine hindex.wrap.bind (fun i hi => (ordinary_value h).wrap.bind (fun v hv => ?_))
  exact ⟨hi, hv⟩

theorem primaryKeyFrom_ordinary {table : Table} {row : Row} {columns : List Column} {i : Nat}
    (hi : i + columns.length = row.length) :
    Ordinary (· ∈ row) (table.primaryKeyFrom row i columns) := by
  induction columns generalizing i with
  | nil => exact ordinary_fault _ _
  | cons column columns ih =>
    have hlast : i + (columns.length + 1) = row.length := hi
    unfold Table.primaryKeyFrom
    split_ifs
    · exact ordinary_index (by omega)
    · exact ih (by omega)

/-- The primary key is one of the values of the row. -/
theorem primaryKeyValue_ordinary (table : Table) (row : Row) :
    Ordinary (fun v => row.length = table.columns.length ∧ v ∈ row)
      (table.primaryKeyValue row) := by
  unfold Table.primaryKeyValue
  by_cases hlength : row.length ≠ table.columns.length
  · rw [if_pos hlength]
    exact ordinary_fault _ _
  · rw [if_neg hlength]
    have hlength := not_not.mp hlength
    exact (primaryKeyFrom_ordinary (by omega)).mono (fun v hv => ⟨hlength, hv⟩)

/-- What a transaction does for the executors while `I` holds: `Known` are the
tables it has handed out, `good` the values in its rows, and `Target` is the
name of the table that the statement may change. -/
structure Serves {S : Type} (rule : Rule TxnCall TxnRet S) (I : S → Prop) (good : Value → Prop)
    (Known : Bytes → Table → Prop) (Target : Bytes → Prop) : Prop where
  monotone : rule.Monotone
  plain : ∀ v, Plain v → good v
  defaults : ∀ {name table}, Known name table → ∀ c ∈ table.columns, Given good c.default
  getTable : ∀ name, Behaves rule I (Given (Known name)) (txn (.getTable name))
  scanTable : ∀ table, Behaves rule I
    (fun rows => ∀ row ∈ rows, row.length = table.columns.length ∧ ∀ v ∈ row, good v)
    (txn (.scanTable table))
  createRow : ∀ {name row}, Target name → (∀ v ∈ row, good v) →
    Behaves rule I (fun _ => True) (txn (.createRow name row))
  updateRow : ∀ {name table row} key, Target name → Known name table → (∀ v ∈ row, good v) →
    Behaves rule I (fun _ => True) (txn (.updateRow table key row))
  deleteRow : ∀ {name table} key, Target name → Known name table →
    Behaves rule I (fun _ => True) (txn (.deleteRow table key))

section Executors
variable {S : Type} {rule : Rule TxnCall TxnRet S} {I : S → Prop} {good : Value → Prop}
  {Known : Bytes → Table → Prop} {Target : Bytes → Prop} (hs : Serves rule I good Known Target)
include hs

theorem loadTable_behaves (name : Bytes) : Behaves rule I (Known name) (loadTable name) := by
  refine ((hs.getTable name).wrap hs.monotone).bind hs.monotone (fun o ho => ?_)
  cases o with
  | none => exact behaves_ofExcept (ordinary_fault _ _)
  | some table => exact behaves_done (ho table rfl)

/-- The executors above a source assert that its result has rows. -/
theorem behaves_rows {Panics : String → Prop} {α : Type} {P : List Bytes → List Row → Prop}
    {R : α → Prop} {p : ExecM ResultSet} {f : List Bytes × List Row → ExecM α}
    (h : Conducts Panics rule I (HasRows P) p)
    (hf : ∀ columns rs, P columns rs → Conducts Panics rule I R (f (columns, rs))) :
    Conducts Panics rule I R (p.bind (fun result => (Prog.ofExcept result.toRows).bind f)) := by
  refine h.bind hs.monotone (fun result hresult => ?_)
  obtain ⟨columns, rs, rfl, hP⟩ := hresult
  exact hf columns rs hP

theorem scan_behaves (walk : Walk) (name : Bytes) :
    Behaves rule I (HasRows (fun columns rs => Wide columns rs ∧ ∀ row ∈ rs, ∀ v ∈ row, good v))
      (Sql.execute walk (.scan name)) := by
  refine (loadTable_behaves hs name).bind hs.monotone (fun table _ => ?_)
  refine ((hs.scanTable table).wrap hs.monotone).bind hs.monotone (fun rs hrs => ?_)
  refine behaves_done ⟨_, rs, rfl, ?_, fun row hrow => (hrs row hrow).2⟩
  exact fun row hrow => by simpa using (hrs row hrow).1

/-- A filter keeps what also holds of some of the rows. -/
theorem filter_behaves {Panics : String → Prop} {walk : Walk} {source : Node}
    {predicate : Expression} (hp : Comparison predicate) {P : List Bytes → List Row → Prop}
    (hwide : ∀ columns rs, P columns rs → Wide columns rs)
    (hsub : ∀ columns rs kept, P columns rs → (∀ row ∈ kept, row ∈ rs) → P columns kept)
    (h : Conducts Panics rule I (HasRows P) (Sql.execute walk source)) :
    Conducts Panics rule I (HasRows P) (Sql.execute walk (.filter source predicate)) := by
  refine behaves_rows hs (h.wrap hs.monotone) (fun columns rs hrs => ?_)
  refine (behaves_ofExcept (filterRows_ordinary hp (hwide _ _ hrs) 0)).bind hs.monotone
    (fun kept hkept => ?_)
  exact behaves_done ⟨columns, kept, rfl, hsub columns rs kept hrs hkept⟩

theorem rowSource_behaves (walk : Walk) {name : Bytes} {source : Node} (h : RowSource name source) :
    Behaves rule I (HasRows (fun columns rs => Wide columns rs ∧ ∀ row ∈ rs, ∀ v ∈ row, good v))
      (Sql.execute walk source) := by
  obtain ⟨predicate, rfl, hp⟩ := h
  cases predicate with
  | none => exact scan_behaves hs walk name
  | some e =>
    apply filter_behaves hs (hp e rfl) _ _ (scan_behaves hs walk name)
    · exact fun _ _ hrs => hrs.1
    · intro columns rs kept hrs hkept
      exact ⟨hrs.1.subset hkept, fun row hrow => hrs.2 row (hkept row hrow)⟩

/-- Every node of a query returns rows that are as wide as its columns. Only a
join can panic. -/
theorem query_behaves (walk : Walk) {node : Node} (h : Planned node) :
    Conducts (JoinPanic node) rule I (HasRows Wide) (Sql.execute walk node) := by
  induction node with
  | scan name =>
    apply ((scan_behaves hs walk name).among hs.monotone).mono hs.monotone
    exact fun _ ⟨columns, rs, hr, hwide⟩ => ⟨columns, rs, hr, hwide.1⟩
  | filter source predicate ih =>
    apply filter_behaves hs h.2 _ _ (ih h.1)
    · exact fun _ _ hrs => hrs
    · exact fun _ _ _ hrs hkept => hrs.subset hkept
  | order source orderBy ih =>
    refine behaves_rows hs ((ih h).wrap hs.monotone) (fun columns rs hrs => ?_)
    refine (behaves_ofExcept (orderRows_ordinary orderBy hrs)).bind hs.monotone (fun out hout => ?_)
    exact behaves_done ⟨columns, out, rfl, hrs.subset hout⟩
  | limit source limit ih =>
    refine behaves_rows hs ((ih h.1).wrap hs.monotone) (fun columns rs hrs => ?_)
    refine (behaves_ofExcept (limitRows_ordinary h.2 rs)).bind hs.monotone (fun out hout => ?_)
    exact behaves_done ⟨columns, out, rfl, hrs.subset hout⟩
  | offset source offset ih =>
    refine behaves_rows hs ((ih h.1).wrap hs.monotone) (fun columns rs hrs => ?_)
    refine (behaves_ofExcept (offsetRows_ordinary h.2 rs)).bind hs.monotone (fun out hout => ?_)
    exact behaves_done ⟨columns, out, rfl, hrs.subset hout⟩
  | projection source items ih =>
    refine behaves_rows hs ((ih h.1).wrap hs.monotone) (fun columns rs hrs => ?_)
    refine (behaves_ofExcept (projectRows_ordinary h.2 hrs)).bind hs.monotone (fun out hout => ?_)
    exact behaves_done ⟨out.1, out.2, rfl, hout⟩
  | aggregate source items groupBy ih =>
    refine behaves_rows hs ((ih h.1).wrap hs.monotone) (fun columns rs hrs => ?_)
    refine (behaves_ofExcept (aggregateRows_ordinary hrs h.2.1 h.2.2)).bind hs.monotone
      (fun out hout => ?_)
    exact behaves_done ⟨out.1, out.2, rfl, hout⟩
  | nestedLoopJoin left right predicate outer ihleft ihright =>
    obtain ⟨hleft, hright, hp⟩ := h
    have hinput : ∀ {input : Node} message, JoinPanic input message →
        JoinPanic (.nestedLoopJoin left right predicate outer) message := fun _ hm => ⟨rfl, hm.2⟩
    have hleft := (ihleft hleft).panics hs.monotone hinput
    have hright := (ihright hright).panics hs.monotone hinput
    refine behaves_rows hs (hleft.wrap hs.monotone) (fun leftColumns leftRows hl => ?_)
    refine behaves_rows hs (hright.wrap hs.monotone) (fun rightColumns rightRows hr => ?_)
    refine (conducts_ofExcept
      ((joinRows_concludes hp outer hl hr).panics fun message hm => ?_)).bind
      hs.monotone (fun out hout => ?_)
    · exact ⟨rfl, hm⟩
    · exact behaves_done ⟨_, out, rfl, hout⟩
  | createTable | insert | update | delete => exact h.elim

/-- The loop of INSERT, row by row. -/
theorem insertRows_behaves {name : Bytes} (hname : Target name) {table : Table}
    (htable : ∀ c ∈ table.columns, Given good c.default) (columns : List Bytes) {i : Nat}
    {values : List (List Expression)} (h : ∀ row ∈ values, ∀ e ∈ row, Operand e) :
    Behaves rule I (fun _ => True) (insertRows name table columns i values) := by
  induction values generalizing i with
  | nil => exact behaves_done trivial
  | cons es values ih =>
    obtain ⟨hes, hrest⟩ := List.forall_mem_cons.mp h
    refine (behaves_ofExcept (insertValues_ordinary hs.plain i hes)).bind hs.monotone
      (fun row hrow => ?_)
    refine (behaves_ofExcept (makeInsertRow_ordinary hs.plain htable columns hrow).wrap).bind
      hs.monotone (fun full hfull => ?_)
    exact ((hs.createRow hname hfull).wrap hs.monotone).bind hs.monotone (fun _ _ => ih hrest)

/-- The loop of UPDATE, row by row. -/
theorem updateRows_behaves {name : Bytes} (hname : Target name) {table : Table}
    (htable : Known name table) {assignments : List (Nat × Value)}
    (hassign : ∀ a ∈ assignments, a.1 < table.columns.length ∧ good a.2) {i : Nat} {rs : List Row}
    (h : ∀ row ∈ rs, ∀ v ∈ row, good v) :
    Behaves rule I (fun _ => True) (updateRows table assignments i rs) := by
  induction rs generalizing i with
  | nil => exact behaves_done trivial
  | cons row rs ih =>
    obtain ⟨hrow, hrest⟩ := List.forall_mem_cons.mp h
    refine (behaves_ofExcept (primaryKeyValue_ordinary table row).wrap).bind hs.monotone
      (fun key hkey => ?_)
    -- the assignments are in range, since the row is as wide as the table
    have hupdated : Ordinary (fun r => r.length = table.columns.length ∧ ∀ v ∈ r, good v)
        (assignments.foldlM (fun row a => assign row a.1 a.2) row) := by
      refine ordinary_foldlM ⟨hkey.1, hrow⟩ ?_
      intro r a ha hr
      obtain ⟨hlt, hgood⟩ := hassign a ha
      exact (assign_good (hr.1.symm ▸ hlt) hr.2 hgood).mono
        (fun r' hr' => ⟨hr'.1.trans hr.1, hr'.2⟩)
    refine (behaves_ofExcept hupdated).bind hs.monotone (fun updated hgood => ?_)
    exact ((hs.updateRow key hname htable hgood.2).wrap hs.monotone).bind hs.monotone
      (fun _ _ => ih hrest)

/-- The loop of DELETE, row by row. -/
theorem deleteRows_behaves {name : Bytes} (hname : Target name) {table : Table}
    (htable : Known name table) {i : Nat} (rs : List Row) :
    Behaves rule I (fun _ => True) (deleteRows table i rs) := by
  induction rs generalizing i with
  | nil => exact behaves_done trivial
  | cons row rs ih =>
    refine (behaves_ofExcept (primaryKeyValue_ordinary table row).wrap).bind hs.monotone
      (fun key _ => ?_)
    exact ((hs.deleteRow key hname htable).wrap hs.monotone).bind hs.monotone (fun _ _ => ih)

end Executors

def target : Node → Option Bytes
  | .createTable schema => some schema.name
  | .insert tableName _ _ => some tableName
  | .update tableName _ _ => some tableName
  | .delete tableName _ => some tableName
  | _ => none

/-- A planned statement keeps to the rule of its transaction, and panics at a join only. -/
theorem statement_behaves {S : Type} {rule : Rule TxnCall TxnRet S} {I : S → Prop}
    {good : Value → Prop} {Known : Bytes → Table → Prop} {Target : Bytes → Prop}
    (hs : Serves rule I good Known Target) {walk : Walk}
    (hwalk : ∀ l, (walk l).Perm l) {node : Node}
    (h : PlannedStatement node) (htarget : Given Target (target node))
    (hcreate : ∀ schema, node = .createTable schema →
      Behaves rule I (fun _ => True) (txn (.createTable schema))) :
    Conducts (JoinPanic node) rule I (Fits node) (Sql.execute walk node) := by
  cases node with
  | createTable schema =>
    refine Conducts.among hs.monotone ?_
    exact (hcreate schema rfl).bind hs.monotone (fun _ _ => behaves_done trivial)
  | insert name columns values =>
    refine Conducts.among hs.monotone ?_
    refine (loadTable_behaves hs name).bind hs.monotone (fun table htable => ?_)
    refine (insertRows_behaves hs (htarget name rfl) (hs.defaults htable) columns h.2).bind
      hs.monotone (fun _ _ => behaves_done trivial)
  | update name source assignments =>
    obtain ⟨-, hsource, hassign⟩ := h
    refine Conducts.among hs.monotone ?_
    refine (loadTable_behaves hs name).bind hs.monotone (fun table htable => ?_)
    have hresolve := ordinary_mapM (l := walk assignments.entries) (fun a ha =>
      @resolveAssignment_ordinary table a (hassign a ((hwalk _).mem_iff.mp ha)))
    refine (behaves_ofExcept hresolve).bind hs.monotone (fun resolved hresolved => ?_)
    refine behaves_rows hs (rowSource_behaves hs walk hsource) (fun columns rs hrs => ?_)
    have hgood : ∀ a ∈ resolved, a.1 < table.columns.length ∧ good a.2 :=
      fun a ha => ⟨(hresolved.2 a ha).1, hs.plain _ (hresolved.2 a ha).2⟩
    exact (updateRows_behaves hs (htarget name rfl) htable hgood hrs.2).bind hs.monotone
      (fun _ _ => behaves_done trivial)
  | delete name source =>
    refine Conducts.among hs.monotone ?_
    refine (loadTable_behaves hs name).bind hs.monotone (fun table htable => ?_)
    refine behaves_rows hs (rowSource_behaves hs walk h.2) (fun columns rs hrs => ?_)
    exact (deleteRows_behaves hs (htarget name rfl) htable rs).bind hs.monotone
      (fun _ _ => behaves_done trivial)
  | _ => exact query_behaves hs walk h

end SpaceDB.Proofs
