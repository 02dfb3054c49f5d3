import Mathlib.Data.List.Induction
import SpaceDB.Storage.Runs

namespace SpaceDB.Proofs
open Lib Storage

variable {n : NilValue} {s s' : Sys}

theorem record_begins (o : Op) (r : Except Error Answer) (store : Store) :
    (s.record o r store).begins = if o = .begin then s.begins + 1 else s.begins := by
  cases o with
  | begin =>
    cases r with
    | error e => rfl
    | ok a => cases a <;> rfl
  | get t k => rfl
  | scanPrefix t p => rfl
  | set t k v => cases r <;> rfl
  | delete t k => cases r <;> rfl
  | commit t => cases r <;> rfl
  | rollback t => cases r <;> rfl

theorem crashed_begins (o : Op) (store : Store) :
    (s.crashed o store).begins = if o = .begin then s.begins + 1 else s.begins := by
  cases o with
  | commit t =>
    simp only [Sys.crashed]
    split
    · split <;> rfl
    · rfl
  | _ => rfl

def operation : Step → Op
  | .op o | .crash o _ | .faulty o _ => o

/-- Only Begin counts up. -/
theorem step_begins {st : Step} {r : Result} (h : s.step n st = some (s', r)) :
    s'.begins = if operation st = .begin then s.begins + 1 else s.begins := by
  cases st with
  | op o =>
    obtain ⟨p, -, hp⟩ := Option.map_eq_some_iff.mp h
    cases hp
    exact record_begins o _ _
  | crash o calls =>
    obtain ⟨p, -, hp⟩ := Option.map_eq_some_iff.mp h
    cases hp
    exact crashed_begins o _
  | faulty o faults =>
    obtain ⟨p, -, hp⟩ := Option.map_eq_some_iff.mp h
    cases hp
    exact record_begins o _ _

theorem step_begins_le {st : Step} {r : Result} (h : s.step n st = some (s', r)) :
    s.begins ≤ s'.begins := by
  rw [step_begins h]
  split <;> omega

def SameSnapshot (x x' : Txn) : Prop := x'.state = x.state ∧ x'.seen = x.seen

theorem update_snapshot {t u : Nat} {x : Txn} {f : Txn → Txn} (hf : ∀ y, SameSnapshot y (f y))
    (hx : s.txns t = some x) : ∃ x', (s.update u f).txns t = some x' ∧ SameSnapshot x x' := by
  change ∃ x', Function.update _ _ _ _ = _ ∧ _
  rw [Function.update_apply]
  by_cases hu : t = u
  · subst hu
    exact ⟨f x, by rw [if_pos rfl, hx]; rfl, hf x⟩
  · exact ⟨x, by rw [if_neg hu, hx], rfl, rfl⟩

theorem lose_snapshot {t : Nat} {x : Txn} (hx : s.txns t = some x) :
    ∃ x', s.lose.txns t = some x' ∧ SameSnapshot x x' := by
  refine ⟨_, congrArg (Option.map _) hx, ?_⟩
  dsimp only
  split
  · exact ⟨rfl, rfl⟩
  · exact ⟨rfl, rfl⟩

theorem record_snapshot {t : Nat} {x : Txn} (o : Op) (r : Except Error Answer) (store : Store)
    (ht : t < s.begins) (hx : s.txns t = some x) :
    ∃ x', (s.record o r store).txns t = some x' ∧ SameSnapshot x x' := by
  have hsame : ∀ {s' : Sys}, s'.txns = s.txns → ∃ x', s'.txns t = some x' ∧ SameSnapshot x x' :=
    fun heq => ⟨x, by rw [heq, hx], rfl, rfl⟩
  cases r with
  | error e => cases o <;> exact hsame rfl
  | ok a =>
    cases o with
    | begin =>
      cases a with
      | handle st =>
        refine ⟨x, ?_, rfl, rfl⟩
        change Function.update _ _ _ _ = _
        rw [Function.update_apply, if_neg (ne_of_lt ht), hx]
      | value v => exact hsame rfl
      | entries es => exact hsame rfl
      | unit => exact hsame rfl
    | get u k => exact hsame rfl
    | scanPrefix u p => exact hsame rfl
    | set u k v => exact update_snapshot (fun _ => ⟨rfl, rfl⟩) hx
    | delete u k => exact update_snapshot (fun _ => ⟨rfl, rfl⟩) hx
    | commit u => exact update_snapshot (fun _ => ⟨rfl, rfl⟩) hx
    | rollback u => exact update_snapshot (fun _ => ⟨rfl, rfl⟩) hx

theorem crashed_snapshot {t : Nat} {x : Txn} (o : Op) (store : Store) (ht : t < s.begins)
    (hx : s.txns t = some x) : ∃ x', (s.crashed o store).txns t = some x' ∧ SameSnapshot x x' := by
  cases o with
  | commit u =>
    simp only [Sys.crashed]
    split
    · split
      · obtain ⟨y, hy, h1, h2⟩ := record_snapshot (.commit u) (.ok .unit) store ht hx
        obtain ⟨z, hz, h3, h4⟩ := lose_snapshot hy
        exact ⟨z, hz, h3.trans h1, h4.trans h2⟩
      · exact lose_snapshot hx
    · exact lose_snapshot hx
  | _ => exact lose_snapshot hx

/-- No step changes the snapshot of a handle. -/
theorem step_snapshot {t : Nat} {x : Txn} {st : Step} {r : Result} (ht : t < s.begins)
    (hx : s.txns t = some x) (h : s.step n st = some (s', r)) :
    ∃ x', s'.txns t = some x' ∧ SameSnapshot x x' := by
  cases st with
  | op o =>
    obtain ⟨p, -, hp⟩ := Option.map_eq_some_iff.mp h
    cases hp
    exact record_snapshot o _ _ ht hx
  | crash o calls =>
    obtain ⟨p, -, hp⟩ := Option.map_eq_some_iff.mp h
    cases hp
    exact crashed_snapshot o _ ht hx
  | faulty o faults =>
    obtain ⟨p, -, hp⟩ := Option.map_eq_some_iff.mp h
    cases hp
    exact record_snapshot o _ _ ht hx

theorem run_cons {st : Step} {steps : List Step} {results : List Result} :
    s.run n (st :: steps) = some (s', results) ↔
      ∃ m r rs, s.step n st = some (m, r) ∧ Sys.run n m steps = some (s', rs) ∧
        results = r :: rs := by
  rw [Sys.run]
  cases hs : s.step n st with
  | none => simp
  | some q =>
    obtain ⟨m, r⟩ := q
    simp only [Option.map_eq_some_iff, Prod.exists, Prod.mk.injEq, Option.some.injEq]
    constructor
    · intro h
      obtain ⟨s'', rs, hrun, rfl, rfl⟩ := h
      exact ⟨m, r, rs, ⟨rfl, rfl⟩, hrun, rfl⟩
    · intro h
      obtain ⟨_, _, rs, ⟨rfl, rfl⟩, hrun, rfl⟩ := h
      exact ⟨s', rs, hrun, rfl, rfl⟩

/-- A run in two parts. -/
theorem run_append {as bs : List Step} {results : List Result} :
    s.run n (as ++ bs) = some (s', results) ↔
      ∃ m rs rs', s.run n as = some (m, rs) ∧ Sys.run n m bs = some (s', rs') ∧
        results = rs ++ rs' := by
  induction as generalizing s results with
  | nil =>
    constructor
    · intro h
      exact ⟨s, [], results, rfl, h, rfl⟩
    · intro h
      obtain ⟨_, _, rs', heq, hrun, rfl⟩ := h
      cases heq
      exact hrun
  | cons st as ih =>
    rw [List.cons_append, run_cons]
    constructor
    · intro h
      obtain ⟨m, r, rs, hstep, hrun, rfl⟩ := h
      obtain ⟨m', rs, rs', has, hbs, rfl⟩ := ih.mp hrun
      exact ⟨m', r :: rs, rs', run_cons.mpr ⟨m, r, rs, hstep, has, rfl⟩, hbs, rfl⟩
    · intro h
      obtain ⟨m', rs, rs', has, hbs, rfl⟩ := h
      obtain ⟨m, r, rs, hstep, hrun, rfl⟩ := run_cons.mp has
      exact ⟨m, r, rs ++ rs', hstep, ih.mpr ⟨m', rs, rs', hrun, hbs, rfl⟩, rfl⟩

/-- What every step of a kind keeps, every run of such steps keeps. -/
theorem run_induction {kind : Step → Prop} {P : Sys → Prop}
    (hstep : ∀ {s st s' r}, kind st → P s → s.step n st = some (s', r) → P s')
    {steps : List Step} {results : List Result} (hk : ∀ st ∈ steps, kind st) (h : P s)
    (hrun : s.run n steps = some (s', results)) : P s' := by
  induction steps generalizing s results with
  | nil =>
    cases hrun
    exact h
  | cons st steps ih =>
    obtain ⟨m, r, rs, hst, hrun, -⟩ := run_cons.mp hrun
    exact ih (fun st' h' => hk st' (List.mem_cons_of_mem _ h'))
      (hstep (hk st List.mem_cons_self) h hst) hrun

/-- The same with the steps so far and their results in view. -/
theorem run_history {P : List (Step × Result) → Sys → Prop} (hnil : P [] s)
    (hstep : ∀ {past m p m'}, P past m → Sys.step n m p.1 = some (m', p.2) → P (past ++ [p]) m')
    {past : List (Step × Result)}
    (hrun : s.run n (past.map Prod.fst) = some (s', past.map Prod.snd)) : P past s' := by
  induction past using List.reverseRecOn generalizing s' with
  | nil =>
    cases hrun
    exact hnil
  | append_singleton past p ih =>
    rw [List.map_append, List.map_append, run_append] at hrun
    obtain ⟨m, rs, rs', hrun, hlast, heq⟩ := hrun
    obtain ⟨m', r, rs'', hst, hend, rfl⟩ := run_cons.mp hlast
    cases hend
    obtain ⟨hrs, hr⟩ := List.append_inj' heq rfl
    cases hr
    exact hstep (ih (hrs ▸ hrun)) hst

theorem run_begins_le {steps : List Step} {results : List Result}
    (hrun : s.run n steps = some (s', results)) : s.begins ≤ s'.begins := by
  have hk : ∀ st ∈ steps, (fun _ : Step => True) st := fun _ _ => trivial
  refine run_induction (P := fun s' => s.begins ≤ s'.begins) ?_ hk (le_refl _) hrun
  intro m st m' r _ hle hstep
  exact le_trans hle (step_begins_le hstep)

theorem run_snapshot {t : Nat} {x : Txn} {steps : List Step} {results : List Result}
    (ht : t < s.begins) (hx : s.txns t = some x) (hrun : s.run n steps = some (s', results)) :
    ∃ x', s'.txns t = some x' ∧ SameSnapshot x x' := by
  have hk : ∀ st ∈ steps, (fun _ : Step => True) st := fun _ _ => trivial
  have hend := run_induction (P := fun s' => t < s'.begins ∧
    ∃ x', s'.txns t = some x' ∧ SameSnapshot x x') ?_ hk ⟨ht, x, hx, rfl, rfl⟩ hrun
  · exact hend.2
  · intro s st s' r _ h hstep
    obtain ⟨ht, x', hx', h1, h2⟩ := h
    obtain ⟨x'', hx'', h3, h4⟩ := step_snapshot ht hx' hstep
    exact ⟨lt_of_lt_of_le ht (step_begins_le hstep), x'', hx'', h3.trans h1, h4.trans h2⟩

/-- A run and something observed at its end, by evaluation. -/
theorem run_observe {α : Type} (n : NilValue) (steps : List Step) (f : Sys → Option α) (a : α)
    (h : (Sys.init.run n steps).bind (fun q => f q.1) = some a) :
    ∃ s results, Sys.init.run n steps = some (s, results) ∧ f s = some a := by
  obtain ⟨q, hq, hf⟩ := Option.bind_eq_some_iff.mp h
  exact ⟨q.1, q.2, hq, hf⟩

theorem reliable_of_plain {st : Step} (h : st.plain) : st.reliable := by
  cases st with
  | op o => exact trivial
  | crash o calls => cases h
  | faulty o faults => cases h

end SpaceDB.Proofs
