import SpaceDB.Lib.Program

namespace Lib

/-- For every call, what has to hold before it for a condition to hold after
it; `S` is what is known about the world. -/
abbrev Rule (Call : Type) (Ret : Call → Type) (S : Type) :=
  (c : Call) → (Ret c → S → Prop) → S → Prop

variable {Call Call' : Type} {Ret : Call → Type} {Ret' : Call' → Type} {ε ε' α β S σ : Type}

def Rule.Monotone (rule : Rule Call Ret S) : Prop :=
  ∀ c {P Q : Ret c → S → Prop} {s}, (∀ r s', P r s' → Q r s') → rule c P s → rule c Q s

def Rule.anything (Call : Type) (Ret : Call → Type) : Rule Call Ret Unit :=
  fun _ P s => ∀ r, P r s

/-- A rule under which every call also leaves the world in `I`. -/
def Rule.keeping (rule : Rule Call Ret S) (I : S → Prop) : Rule Call Ret S :=
  fun c P s => rule c (fun r s' => I s' ∧ P r s') s

theorem Rule.Monotone.keeping {rule : Rule Call Ret S} (h : rule.Monotone) (I : S → Prop) :
    (rule.keeping I).Monotone :=
  fun c _ _ _ hPQ => h c (fun r s' hr => ⟨hr.1, hPQ r s' hr.2⟩)

namespace Prog

def wp (rule : Rule Call Ret S) : Prog Call Ret ε α → (Except ε α → S → Prop) → S → Prop
  | .done a, Q, s => Q (.ok a) s
  | .fail e, Q, s => Q (.error e) s
  | .call c next, Q, s => rule c (fun r s' => (next r).wp rule Q s') s

/-- The calls of one interface as programs over another. -/
def through (impl : (c : Call) → Prog Call' Ret' ε (Ret c)) :
    Prog Call Ret ε α → Prog Call' Ret' ε α
  | .done a => .done a
  | .fail e => .fail e
  | .call c next => (impl c).bind (fun r => (next r).through impl)

section Rules
variable {rule : Rule Call Ret S} {p : Prog Call Ret ε α} {s : S}

theorem wp_mono (hrule : rule.Monotone) {P Q : Except ε α → S → Prop}
    (hPQ : ∀ r s', P r s' → Q r s') (h : p.wp rule P s) : p.wp rule Q s := by
  induction p generalizing s with
  | done a => exact hPQ _ _ h
  | fail e => exact hPQ _ _ h
  | call c next ih => exact hrule c (fun r s' hr => ih r hr) h

/-- The rule for two programs one after the other. -/
theorem wp_bind (hrule : rule.Monotone) {f : α → Prog Call Ret ε β} {Q : Except ε β → S → Prop}
    (h : p.wp rule (fun r s' => match r with
      | .ok a => (f a).wp rule Q s'
      | .error e => Q (.error e) s') s) : (p.bind f).wp rule Q s := by
  induction p generalizing s with
  | done a => exact h
  | fail e => exact h
  | call c next ih => exact hrule c (fun r s' hr => ih r hr) h

/-- The postcondition of a first part, when its errors are passed on. -/
theorem wp_seq (hrule : rule.Monotone) {f : α → Prog Call Ret ε β} {P : Except ε α → S → Prop}
    {Q : Except ε β → S → Prop} (hp : p.wp rule P s)
    (hok : ∀ a s', P (.ok a) s' → (f a).wp rule Q s')
    (herror : ∀ e s', P (.error e) s' → Q (.error e) s') : (p.bind f).wp rule Q s := by
  refine wp_bind hrule (wp_mono hrule ?_ hp)
  intro r s' hr
  cases r with
  | ok a => exact hok a s' hr
  | error e => exact herror e s' hr

theorem wp_mapError (hrule : rule.Monotone) {f : ε → ε'} {Q : Except ε' α → S → Prop}
    (h : p.wp rule (fun r s' => Q (r.mapError f) s') s) : (p.mapError f).wp rule Q s := by
  induction p generalizing s with
  | done a => exact h
  | fail e => exact h
  | call c next ih => exact hrule c (fun r s' hr => ih r hr) h

theorem wp_attempt (hrule : rule.Monotone) {Q : Except ε' (Except ε α) → S → Prop}
    (h : p.wp rule (fun r s' => Q (.ok r) s') s) :
    (p.attempt : Prog Call Ret ε' (Except ε α)).wp rule Q s := by
  induction p generalizing s with
  | done a => exact h
  | fail e => exact h
  | call c next ih => exact hrule c (fun r s' hr => ih r hr) h

theorem wp_ofExcept {r : Except ε α} {Q : Except ε α → S → Prop} (h : Q r s) :
    (ofExcept r : Prog Call Ret ε α).wp rule Q s := by
  cases r <;> exact h

/-- A program is as good as its calls are implemented. -/
theorem wp_through {rule' : Rule Call' Ret' S} (hrule' : rule'.Monotone) (hrule : rule.Monotone)
    {impl : (c : Call) → Prog Call' Ret' ε (Ret c)}
    (himpl : ∀ c (P : Ret c → S → Prop) s, rule c P s →
      (impl c).wp rule' (fun r s' => ∃ a, r = .ok a ∧ P a s') s)
    {Q : Except ε α → S → Prop} (h : p.wp rule Q s) : (p.through impl).wp rule' Q s := by
  induction p generalizing s with
  | done a => exact h
  | fail e => exact h
  | call c next ih =>
    refine wp_seq hrule' (himpl c _ s (hrule c (fun r s' hr => ih r hr) h)) ?_ ?_
    · rintro r s' ⟨a, hr, hP⟩
      cases hr
      exact hP
    · rintro e s' ⟨a, hr, -⟩
      cases hr

/-- A world that keeps to the rule ends as the program promises; `At` says what
is known about it. -/
theorem wp_run {h : Handler Call Ret σ} (At : σ → S → Prop)
    (hsound : ∀ c (P : Ret c → S → Prop) w s, At w s → rule c P s →
      ∃ s', At (h c w).2 s' ∧ P (h c w).1 s')
    {Q : Except ε α → S → Prop} {w : σ} (hw : At w s) (hp : p.wp rule Q s) :
    ∃ s', At (p.run h w).2 s' ∧ Q (p.run h w).1 s' := by
  induction p generalizing w s with
  | done a => exact ⟨s, hw, hp⟩
  | fail e => exact ⟨s, hw, hp⟩
  | call c next ih =>
    obtain ⟨s', hw', hnext⟩ := hsound c _ w s hw hp
    exact ih _ hw' hnext

end Rules

section Layers
variable {h : Handler Call' Ret' σ}

/-- A program over an interface runs as over a world that answers with the
implementation of each call. -/
theorem run_through {Val : Call → Type} {p : Prog Call (fun c => Except ε (Val c)) ε α}
    (impl : (c : Call) → Prog Call' Ret' ε (Val c)) (s : σ) :
    (p.through (fun c => (impl c).attempt)).run h s = p.run (fun c s => (impl c).run h s) s := by
  induction p generalizing s with
  | done a => rfl
  | fail e => rfl
  | call c next ih =>
    rw [through, run_bind_ok h (run_attempt h (impl c) s), run_call]
    exact ih _ _

theorem guarded_attempt {P : Call → Prop} {p : Prog Call Ret ε' α}
    (hp : p.Guarded P (fun _ _ => False)) :
    (p.attempt : Prog Call Ret ε (Except ε' α)).Guarded P (fun _ _ => False) := by
  induction p with
  | done a => trivial
  | fail e => trivial
  | call c next ih => exact ⟨hp.1, fun _ hr => hr.elim, fun r => ih r (hp.2.2 r)⟩

theorem guarded_through {P : Call' → Prop} {impl : (c : Call) → Prog Call' Ret' ε (Ret c)}
    (himpl : ∀ c, (impl c).Guarded P (fun _ _ => False)) (p : Prog Call Ret ε α) :
    (p.through impl).Guarded P (fun _ _ => False) := by
  induction p with
  | done a => trivial
  | fail e => trivial
  | call c next ih => exact (himpl c).bind ih

end Layers

theorem anything_monotone : (Rule.anything Call Ret).Monotone :=
  fun _ _ _ _ hPQ h r => hPQ r _ (h r)

end Prog
end Lib
