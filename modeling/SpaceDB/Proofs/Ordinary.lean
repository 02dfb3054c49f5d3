import SpaceDB.Lib.Transformer
import SpaceDB.Proofs.WellFormed
import SpaceDB.Sql.Executor

namespace SpaceDB.Proofs
open Lib Storage Sql

/-- A result satisfies `Q`, and a panic is one of these. -/
def Concludes {α : Type} (Panics : String → Prop) (Q : α → Prop) : Outcome α → Prop
  | .ok a => Q a
  | .error (.error _) => True
  | .error (.panic message) => Panics message

abbrev Ordinary {α : Type} (Q : α → Prop) : Outcome α → Prop := Concludes (fun _ => False) Q

section Concludes
variable {α β : Type} {Panics : String → Prop} {P Q : α → Prop} {r : Outcome α}

theorem Concludes.mono (h : Concludes Panics P r) (hPQ : ∀ a, P a → Q a) :
    Concludes Panics Q r := by
  cases r with
  | ok a => exact hPQ a h
  | error e => cases e <;> exact h

theorem Concludes.bind {R : β → Prop} {f : α → Outcome β} (h : Concludes Panics P r)
    (hf : ∀ a, P a → Concludes Panics R (f a)) : Concludes Panics R (r >>= f) := by
  cases r with
  | ok a => exact hf a h
  | error e => cases e <;> exact h

theorem Concludes.map {R : β → Prop} {f : α → β} (h : Concludes Panics P r)
    (hf : ∀ a, P a → R (f a)) :
    Concludes Panics R (f <$> r) := by
  cases r with
  | ok a => exact hf a h
  | error e => cases e <;> exact h

theorem Concludes.wrap {format : String} {args : List Arg} (h : Concludes Panics Q r) :
    Concludes Panics Q (r.wrap format args) := by
  cases r with
  | ok a => exact h
  | error e => cases e <;> exact h

theorem Concludes.panics {Panics' : String → Prop} (h : Concludes Panics Q r)
    (hpanics : ∀ message, Panics message → Panics' message) : Concludes Panics' Q r := by
  cases r with
  | ok a => exact h
  | error e =>
    cases e with
    | error e => exact h
    | panic message => exact hpanics message h

end Concludes

section Ordinary
variable {α β : Type} {P Q : α → Prop} {r : Outcome α}

theorem ordinary_fault (format : String) (args : List Arg) :
    Ordinary Q (fault format args) := trivial

/-- A loop whose rounds do not panic does not. -/
theorem ordinary_mapM {R : β → Prop} {f : α → Outcome β} {l : List α}
    (h : ∀ a ∈ l, Ordinary R (f a)) :
    Ordinary (fun bs => bs.length = l.length ∧ ∀ b ∈ bs, R b) (l.mapM f) := by
  induction l with
  | nil => exact ⟨rfl, by simp⟩
  | cons a l ih =>
    obtain ⟨ha, hl⟩ := List.forall_mem_cons.mp h
    rw [List.mapM_cons]
    refine ha.bind (fun b hb => (ih hl).bind (fun bs hbs => ?_))
    exact ⟨by simp [hbs.1], List.forall_mem_cons.mpr ⟨hb, hbs.2⟩⟩

theorem ordinary_foldlM {f : β → α → Outcome β} {l : List α} {I : β → Prop} {b : β} (hb : I b)
    (h : ∀ b a, a ∈ l → I b → Ordinary I (f b a)) : Ordinary I (l.foldlM f b) := by
  induction l generalizing b with
  | nil => exact hb
  | cons a l ih =>
    rw [List.foldlM_cons]
    refine (h b a List.mem_cons_self hb).bind (fun b' hb' => ih hb' ?_)
    exact fun b a ha => h b a (List.mem_cons_of_mem _ ha)

theorem ordinary_index {l : List α} {i : Nat} (hi : i < l.length) :
    Ordinary (· ∈ l) (index l i) := by
  unfold index
  rw [List.getElem?_eq_getElem hi]
  exact List.getElem_mem hi

theorem ordinary_assign {l : List α} {i : Nat} {a : α} (hi : i < l.length) :
    Ordinary (fun m => m.length = l.length ∧ ∀ b ∈ m, b = a ∨ b ∈ l) (assign l i a) := by
  unfold assign
  rw [if_pos hi]
  refine ⟨List.length_set, ?_⟩
  intro b hb
  exact (List.mem_or_eq_of_mem_set hb).symm

end Ordinary

theorem index_eq {α : Type} {l : List α} {i : Nat} {a : α} (h : l[i]? = some a) :
    index l i = .ok a := by
  unfold index
  rw [h]

theorem assign_eq {α : Type} {l : List α} {i : Nat} (h : i < l.length) (a : α) :
    assign l i a = .ok (l.set i a) := if_pos h

theorem index_idxOf {columns : List Bytes} {name : Bytes} {i : Nat}
    (h : columnIndexOf columns name = some i) : i < columns.length :=
  (List.findIdx?_eq_some_iff_getElem.mp h).1

theorem ordinary_compare (a b : Value) : Ordinary (fun _ => True) (a.compare b) := by
  cases a <;> cases b <;> exact trivial

/-- The values that literals stand for: no NaN, no infinity, nothing below
zero and no negative zero. -/
def Plain : Value → Prop
  | .float f => f.negative = false ∧ f.finite = true
  | _ => True

theorem ordinary_value {e : Expression} (h : Operand e) :
    Ordinary Plain (valueFromExpression e) := by
  cases h with
  | float hneg hfin => exact ⟨hneg, hfin⟩
  | _ => exact trivial

section Conducts
variable {Call : Type} {Ret : Call → Type} {S α β : Type} {Panics : String → Prop}
  {rule : Rule Call Ret S} {I : S → Prop} {P Q : α → Prop} {p : Prog Call Ret Fault α}

/-- As long as the world keeps to the rule, the program keeps `I`, its result
satisfies `Q`, and a panic is one of these. -/
def Conducts (Panics : String → Prop) (rule : Rule Call Ret S) (I : S → Prop) (Q : α → Prop)
    (p : Prog Call Ret Fault α) : Prop :=
  ∀ s, I s → p.wp rule (fun r s' => I s' ∧ Concludes Panics Q r) s

abbrev Behaves (rule : Rule Call Ret S) (I : S → Prop) (Q : α → Prop) (p : Prog Call Ret Fault α) :
    Prop :=
  Conducts (fun _ => False) rule I Q p

theorem behaves_done {a : α} (h : Q a) : Conducts Panics rule I Q (.done a) := fun _ hs => ⟨hs, h⟩

theorem behaves_fail (e : Error) : Conducts Panics rule I Q (.fail (.error e)) :=
  fun _ hs => ⟨hs, trivial⟩

theorem conducts_ofExcept {r : Outcome α} (h : Concludes Panics Q r) :
    Conducts Panics rule I Q (.ofExcept r) :=
  fun _ hs => Prog.wp_ofExcept ⟨hs, h⟩

theorem behaves_ofExcept {r : Outcome α} (h : Ordinary Q r) :
    Conducts Panics rule I Q (.ofExcept r) :=
  conducts_ofExcept (h.panics fun _ => False.elim)

theorem Conducts.mono (hrule : rule.Monotone) (h : Conducts Panics rule I P p)
    (hPQ : ∀ a, P a → Q a) : Conducts Panics rule I Q p := by
  intro s hs
  apply Prog.wp_mono hrule _ (h s hs)
  exact fun r s' hr => ⟨hr.1, hr.2.mono hPQ⟩

theorem Conducts.panics (hrule : rule.Monotone) {Panics' : String → Prop}
    (h : Conducts Panics rule I Q p) (hpanics : ∀ message, Panics message → Panics' message) :
    Conducts Panics' rule I Q p := by
  intro s hs
  apply Prog.wp_mono hrule _ (h s hs)
  exact fun r s' hr => ⟨hr.1, hr.2.panics hpanics⟩

/-- What never panics may stand anywhere. -/
theorem Conducts.among (hrule : rule.Monotone) (h : Behaves rule I Q p) :
    Conducts Panics rule I Q p :=
  Conducts.panics hrule h fun _ => False.elim

/-- A second part that may give up `I` for `J`. -/
theorem Conducts.seq (hrule : rule.Monotone) {J : S → Prop} {R : S → β → Prop}
    {f : α → Prog Call Ret Fault β} {s : S} (h : Conducts Panics rule I P p) (hs : I s)
    (hIJ : ∀ s', I s' → J s')
    (hf : ∀ a s', P a → I s' → (f a).wp rule (fun r s' => J s' ∧ Concludes Panics (R s') r) s') :
    (p.bind f).wp rule (fun r s' => J s' ∧ Concludes Panics (R s') r) s := by
  apply Prog.wp_seq hrule (h s hs)
  · exact fun a s' ha => hf a s' ha.2 ha.1
  · intro e s' he
    refine ⟨hIJ s' he.1, ?_⟩
    cases e with
    | error e => exact trivial
    | panic m => exact he.2

theorem Conducts.bind (hrule : rule.Monotone) {R : β → Prop} {f : α → Prog Call Ret Fault β}
    (h : Conducts Panics rule I P p) (hf : ∀ a, P a → Conducts Panics rule I R (f a)) :
    Conducts Panics rule I R (p.bind f) :=
  fun _ hs => h.seq hrule hs (fun _ hs' => hs') (fun a s' ha => hf a ha s')

theorem Conducts.wrap (hrule : rule.Monotone) {format : String} {args : List Arg}
    (h : Conducts Panics rule I Q p) :
    Conducts Panics rule I Q (p.mapError (Fault.wrap format args)) := by
  intro s hs
  apply Prog.wp_mapError hrule
  apply Prog.wp_mono hrule _ (h s hs)
  exact fun r s' hr => ⟨hr.1, hr.2.wrap⟩

end Conducts

section Lookups
variable {columns rightColumns : List Bytes} {row rightRow : Row} {name : Bytes} {i : Nat}

theorem evaluate_missing (h : columnIndexOf columns name = none) :
    evaluateExpression ⟨.columnReference, .string name⟩ columns row rightColumns rightRow =
      fault "executor: column %q does not exist" [.bytes name] := by
  simp [evaluateExpression, evaluate, Payload.toString, bind, Except.bind, h]

theorem evaluate_found (h : columnIndexOf columns name = some i) :
    evaluateExpression ⟨.columnReference, .string name⟩ columns row rightColumns rightRow =
      index row i := by
  simp [evaluateExpression, evaluate, Payload.toString, bind, Except.bind, h]

theorem resolveItem_missing {aliasName : Option Bytes} (h : columnIndexOf columns name = none) :
    resolveItem columns ⟨⟨.columnReference, .string name⟩, aliasName⟩ =
      fault "executor: projection column %q does not exist" [.bytes name] := by
  simp [resolveItem, Payload.toString, bind, Except.bind, h]

theorem resolveItem_found {aliasName : Option Bytes} (h : columnIndexOf columns name = some i) :
    resolveItem columns ⟨⟨.columnReference, .string name⟩, aliasName⟩ =
      .ok ⟨some i, .null, aliasName.getD name⟩ := by
  simp [resolveItem, Payload.toString, bind, Except.bind, h, pure, Except.pure]

end Lookups

end SpaceDB.Proofs
