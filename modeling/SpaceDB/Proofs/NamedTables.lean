import SpaceDB.Proofs.RowStore

namespace SpaceDB.Proofs
open Lib Storage Sql Engine

/-- A table that is read back has the name with which it was stored. Nothing is
asked of columns and rows. -/
def KeepsNames (codec : Codec) : Prop :=
  ∀ table table' encoded, Identifier table.name → codec.encodeTable table = .ok encoded →
    codec.decodeTable encoded = .ok table' → table'.name = table.name

theorem Faithful.keepsNames {codec : Codec} (h : Faithful codec) : KeepsNames codec := by
  intro table table' encoded _ hencoded hdecoded
  rw [h.table hencoded] at hdecoded
  cases hdecoded
  rfl

def Named (codec : Codec) (name encoded : Bytes) : Prop :=
  ∀ table, codec.decodeTable encoded = .ok table → table.name = name

def NamedTables (codec : Codec) (db : Db) : Prop :=
  ∀ name encoded, db (keyNamespaceTable :: name) = some encoded → Named codec name encoded

/-- The writes of a statement on one table: to the definition, and to the keys of
its rows. -/
inductive Touches (codec : Codec) (name : Bytes) : Bytes × Slice → Prop where
  | create {encoded : Bytes} (named : Named codec name encoded) :
      Touches codec name (keyNamespaceTable :: name, some encoded)
  | row {key : Bytes} {pk : Value} (key_eq : rowKey name pk = .ok key) (v : Slice) :
      Touches codec name (key, v)

variable {codec : Codec} {name : Bytes}

theorem Touches.table_key {key : Bytes} {v : Slice}
    (h : Touches codec name (keyNamespaceTable :: key, v)) :
    key = name ∧ ∃ encoded, v = some encoded ∧ Named codec name encoded := by
  cases h with
  | create named => exact ⟨rfl, _, rfl, named⟩
  | row key_eq => exact absurd rfl (table_ne_row key_eq)

/-- Statements keep the names, whatever has been committed since they began. -/
theorem namedTables_merges (codec : Codec) :
    Merges (NamedTables codec) (fun _ w => ∃ name, Touches codec name w) (fun _ _ => True) := by
  refine ⟨nofun, fun _ => trivial, fun _ _ => trivial, fun _ hdb _ hok _ => ⟨?_, trivial⟩⟩
  intro key encoded hstored
  rw [applyWrites_eq] at hstored
  cases hlast : lastWrite _ (keyNamespaceTable :: key) with
  | none =>
    rw [hlast] at hstored
    exact hdb key encoded hstored
  | some v =>
    rw [hlast] at hstored
    cases hstored
    obtain ⟨name, htouches⟩ := hok _ (lastWrite_mem hlast)
    obtain ⟨rfl, encoded', heq, hnamed⟩ := htouches.table_key
    cases heq
    exact hnamed

section Statements
variable {ok : Db → Bytes × Slice → Prop} (Target : Bytes → Prop)

/-- Every execution writes only to the tables that it works on. -/
theorem session_touches (hc : KeepsNames codec) {walk : Walk} (hwalk : ∀ l, (walk l).Perm l)
    {sql : Bytes} (htarget : ∀ node, Session.plan sql = .ok node → Given Target (target node))
    (hok : ∀ {base name w}, Target name → Touches codec name w → ok base w) :
    (Session.execute codec walk sql).wp (phaseRule (NamedTables codec) ok) Ended .idle := by
  apply (phaseRule_phased _ _).statements
  · intro schema hplan db _
    have hident := (planned_text hplan).1
    refine createTable_stores hident.ne_nil fun hencoded _ => ?_
    exact hok (htarget _ hplan _ rfl)
      (.create fun table hdecoded => hc schema table _ hident hencoded hdecoded)
  · intro node hplan hnode db hdb
    have hstores : Stores codec (phaseRule (NamedTables codec) ok)
        (Working codec (fun _ => True) db)
        (fun _ => True) (fun name table => table.name = name) Target :=
      working_stores Target (fun _ _ => trivial) (fun _ _ _ _ _ => trivial)
        (fun hstored hdecoded => hdb _ _ hstored _ hdecoded) (fun h => h)
        (fun hname _ _ _ _ hkey _ => hok hname (.row hkey _)) (fun _ _ _ _ _ => trivial)
        (fun hname hkey => hok hname (.row hkey _))
    have hbehaves := statement_behaves hstores.serves hwalk (planned_text hplan)
      (htarget node hplan) (fun schema heq => absurd heq (hnode schema))
    have hstart : Working codec (fun _ => True) db (.running db db) :=
      ⟨db, rfl, fun _ => rfl, fun _ _ _ _ _ _ _ => trivial⟩
    apply Prog.wp_mono (kvRule_monotone codec phaseRule_monotone) _ (hbehaves _ hstart)
    exact fun _ _ h => h.1.underway

end Statements

/-- In every reachable world, as long as versions do not wrap around. -/
theorem reaches_named {setting : Setting} {w : World} (hc : KeepsNames setting.codec)
    (h : setting.Reaches w) (hb : w.sys.begins < 2 ^ 64 - 1) :
    Sound (NamedTables setting.codec) (fun _ v => ∃ name, Touches setting.codec name v) w := by
  obtain ⟨events, hrun⟩ := h
  refine run_sound _ _ ?_ ?_ sound_init hrun hb
  · exact fun s hs hok => (namedTables_merges setting.codec).commits hs hok
  · intro i sql
    apply session_touches (fun _ => True) hc (setting.walks.perm i)
    · exact fun _ _ _ _ => trivial
    · exact fun _ hw => ⟨_, hw⟩

end SpaceDB.Proofs
