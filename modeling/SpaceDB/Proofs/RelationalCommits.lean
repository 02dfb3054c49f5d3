import SpaceDB.Proofs.KeyedStore
import SpaceDB.Proofs.RelationalStatements

namespace SpaceDB.Proofs
open Lib Storage Sql Engine

section Changes
variable {α β : Type} {base after now next : α}

/-- The change from `base` to `after`, if there is one, is made to `now` and
gives `next`; what it replaces is what it saw. -/
structure Carried (base after now next : α) : Prop where
  changed : after ≠ base → now = base ∧ next = after
  kept : after = base → next = now

theorem Carried.map (h : Carried base after now next) (f : α → β) :
    Carried (f base) (f after) (f now) (f next) := by
  by_cases hsame : after = base
  · rw [hsame, h.kept hsame]
    exact ⟨fun hne => absurd rfl hne, fun _ => rfl⟩
  · obtain ⟨rfl, rfl⟩ := h.changed hsame
    exact ⟨fun _ => ⟨rfl, rfl⟩, id⟩

/-- Writes to keys that nobody else has changed. -/
theorem carried_writes {base db : Db} {ws : List (Bytes × Slice)}
    (hsame : ∀ w ∈ ws, db w.1 = base w.1) (k : Bytes) :
    Carried (base k) (applyWrites base ws k) (db k) (applyWrites db ws k) := by
  rcases applyWrites_cases hsame k with ⟨hdb, hbase⟩ | ⟨hdb, hbase⟩
  · rw [hdb, hbase]
    exact ⟨fun hne => absurd rfl hne, fun _ => rfl⟩
  · rw [hdb, hbase]
    exact ⟨fun _ => ⟨rfl, rfl⟩, id⟩

end Changes

/-- The tables and the rows that a statement has changed are the ones that its
commit changes, whatever else has been committed since it began. -/
structure CarriedOver (base after now next : Relations) : Prop where
  tables : ∀ name, Carried (schemas base name) (schemas after name) (schemas now name)
    (schemas next name)
  rows : ∀ name key, Carried (base.row name key) (after.row name key)
    (now.row name key) (next.row name key)

section Readings
variable {codec : Codec} {m : Contents} {d : Relations} {name : Bytes}

def readTable (codec : Codec) (stored : Option Bytes) : Option Table :=
  (stored.map codec.decodeTable).bind Except.toOption

def readRow (codec : Codec) (stored : Option Bytes) : Option Row :=
  (stored.map codec.decodeRow).bind Except.toOption

theorem Represents.schemas_eq (h : Represents codec m d) (name : Bytes) :
    schemas d name = readTable codec (m.find? (keyNamespaceTable :: name)) := by
  rw [readTable, h.catalog, schemas]
  cases d.find name <;> rfl

theorem Represents.row_eq (h : Represents codec m d) (hname : keySeparator ∉ name) (key : Bytes) :
    d.row name key = readRow codec (m.find? (rowBytes name key)) := by
  rw [readRow, h.rows hname]
  cases d.row name key <;> rfl

theorem Represents.row_none (h : Represents codec m d) (hname : keySeparator ∈ name) (key : Bytes) :
    d.row name key = none := by
  rw [Relations.row]
  cases hd : d.find name with
  | none => rfl
  | some r => exact absurd hname (h.separated hd)

/-- From keys to tables and rows. -/
theorem carriedOver {mbase mafter mnow mnext : Contents} {base after now next : Relations}
    (hbase : Represents codec mbase base) (hafter : Represents codec mafter after)
    (hnow : Represents codec mnow now) (hnext : Represents codec mnext next)
    (h : ∀ k, Carried (mbase.find? k) (mafter.find? k) (mnow.find? k) (mnext.find? k)) :
    CarriedOver base after now next := by
  refine ⟨fun name => ?_, fun name key => ?_⟩
  · rw [hbase.schemas_eq, hafter.schemas_eq, hnow.schemas_eq, hnext.schemas_eq]
    exact (h _).map (readTable codec)
  · by_cases hname : keySeparator ∈ name
    · rw [hbase.row_none hname, hafter.row_none hname, hnow.row_none hname, hnext.row_none hname]
      exact ⟨fun hne => absurd rfl hne, fun _ => rfl⟩
    · rw [hbase.row_eq hname, hafter.row_eq hname, hnow.row_eq hname, hnext.row_eq hname]
      exact (h _).map (readRow codec)

end Readings

variable {setting : Setting} {w : World} {t : Nat}

/-- First committer wins. A statement that has committed after others has made to
the relations that they left exactly the change that it makes on its own to the
relations it began with, and has overwritten nothing that it had not seen. -/
theorem commit_carries_change (hc : Faithful setting.codec) (h : setting.Reaches w)
    (hb : w.sys.begins < 2 ^ 64 - 1) {j : Nat} {e : Execution} {r : Outcome ResultSet}
    (he : w.executions j = some e) (hr : e.result = some r) (ht : e.handle = some t) {us : List Nat}
    (hus : us ++ [t] <+: w.sys.commits) :
    ∃ x base now next, w.sys.txns t = some x ∧ x.seen <+: us ∧
      Represents setting.codec (committedMap w.sys x.seen) base ∧
      Represents setting.codec (committedMap w.sys us) now ∧
      Represents setting.codec (committedMap w.sys (us ++ [t])) next ∧
      r = (base.execute setting j e.sql).1 ∧
      CarriedOver base (base.execute setting j e.sql).2 now next := by
  have hinv := reaches_inv h hb
  obtain ⟨x, later, hx, rfl, hsame⟩ := hinv.committed_after hus
  have hbefore : x.seen ++ later <+: w.sys.commits := (List.prefix_append _ [t]).trans hus
  obtain ⟨base, hbase⟩ := reaches_represents hc h hb (hinv.seen hx)
  obtain ⟨now, hnow⟩ := reaches_represents hc h hb hbefore
  obtain ⟨next, hnext⟩ := reaches_represents hc h hb hus
  obtain ⟨hstatus, hended⟩ := reaches_executed hc h hb he hr ht hx hbase
  have hcommitted : x.status = .committed := by
    obtain ⟨y, hy, hcommitted⟩ :=
      hinv.committed.mp (hus.subset (List.mem_append_right _ List.mem_cons_self))
    rw [hx] at hy
    cases hy
    exact hcommitted
  obtain ⟨result, rfl⟩ : ∃ result, r = .ok result := by
    cases r with
    | ok result => exact ⟨result, rfl⟩
    | error f =>
      rw [hcommitted] at hstatus
      cases f <;> cases hstatus
  rcases hended with ⟨hresult, hafter⟩ | ⟨f, hf, -⟩
  · refine ⟨x, base, now, next, hx, List.prefix_append _ _, hbase, hnow, hnext, hresult, ?_⟩
    refine carriedOver hbase (hafter result rfl) hnow hnext fun k => ?_
    rw [committedMap_append, writesOf_eq hx, ← holding_overwritten (holding_committed _ _) _ k,
      ← holding_overwritten (holding_committed _ _) _ k, ← holding_committed, ← holding_committed]
    exact carried_writes hsame k
  · cases hf

def sameTableInserts : List Event :=
  oneRow ++ [.start (ascii "INSERT INTO t VALUES (2);"), .advance 2] ++
    executed 3 "INSERT INTO t VALUES (3);" 6 ++ List.replicate 5 (.advance 2)

theorem commit_carries_change_insert : ∃ w base now next,
    serialSetting.run .init sameTableInserts = some w ∧ w.sys.commits = [0, 1, 3, 2] ∧
    Represents serialSetting.codec (committedMap w.sys [0, 1]) base ∧
    Represents serialSetting.codec (committedMap w.sys [0, 1, 3]) now ∧
    Represents serialSetting.codec (committedMap w.sys [0, 1, 3, 2]) next ∧
    CarriedOver base
      (base.execute serialSetting 2 (ascii "INSERT INTO t VALUES (2);")).2 now next := by
  have hobserve : (serialSetting.run .init sameTableInserts).bind (fun w =>
      (w.executions 2).bind fun e => (w.sys.txns 2).map fun x =>
        (e.result, decide (e.sql = ascii "INSERT INTO t VALUES (2);" ∧ e.handle = some 2 ∧
          x.seen = [0, 1] ∧ w.sys.commits = [0, 1, 3, 2] ∧ w.sys.begins = 4))) =
      some (some (.ok (.insert 1)), true) := by decide +kernel
  obtain ⟨w, hrun, hw⟩ := Option.bind_eq_some_iff.mp hobserve
  obtain ⟨e, he, hw⟩ := Option.bind_eq_some_iff.mp hw
  obtain ⟨x, hx, hw⟩ := Option.map_eq_some_iff.mp hw
  simp only [Prod.mk.injEq, decide_eq_true_eq] at hw
  obtain ⟨hresult, hsql, hhandle, hseen, hcommits, hbegins⟩ := hw
  have hc : Faithful serialSetting.codec := serialCodec_faithful
  have hus : [0, 1, 3] ++ [2] <+: w.sys.commits := hcommits ▸ List.prefix_refl _
  obtain ⟨y, base, now, next, hy, -, hbase, hnow, hnext, -, hcarried⟩ :=
    commit_carries_change hc ⟨_, hrun⟩ (by omega) he hresult hhandle hus
  rw [hx] at hy
  cases hy
  rw [hseen] at hbase
  rw [hsql] at hcarried
  exact ⟨w, base, now, next, hrun, hcommits, hbase, hnow, hnext, hcarried⟩

end SpaceDB.Proofs
