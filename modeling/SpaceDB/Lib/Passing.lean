import SpaceDB.Lib.Transformer

namespace Lib
namespace Prog
variable {Call Call' : Type} {Ret : Call → Type} {Ret' : Call' → Type} {ε ε' α β σ : Type}

/-- After every answer in `bad` the rest of the program satisfies `Q`. -/
def Meets (bad : (c : Call) → Ret c → Prop) (Q : Prog Call Ret ε α → Prop) :
    Prog Call Ret ε α → Prop
  | .done _ => True
  | .fail _ => True
  | .call c next => (∀ r, bad c r → Q (next r)) ∧ ∀ r, (next r).Meets bad Q

def Failing (mark : ε → Prop) (p : Prog Call Ret ε α) : Prop := ∃ e, p = .fail e ∧ mark e

section Meets
variable {bad : (c : Call) → Ret c → Prop} {p : Prog Call Ret ε α} {Q : Prog Call Ret ε α → Prop}

theorem Meets.bind {f : α → Prog Call Ret ε β} {Q' : Prog Call Ret ε β → Prop} (hp : p.Meets bad Q)
    (hf : ∀ a, (f a).Meets bad Q') (hQ : ∀ q, Q q → Q' (q.bind f)) : (p.bind f).Meets bad Q' := by
  induction p with
  | done a => exact hf a
  | fail e => trivial
  | call c next ih => exact ⟨fun r hr => hQ _ (hp.1 r hr), fun r => ih r (hp.2 r)⟩

theorem Meets.attempt {Q' : Prog Call Ret ε' (Except ε α) → Prop} (hp : p.Meets bad Q)
    (hQ : ∀ q, Q q → Q' q.attempt) : (p.attempt : Prog Call Ret ε' (Except ε α)).Meets bad Q' := by
  induction p with
  | done a => trivial
  | fail e => trivial
  | call c next ih => exact ⟨fun r hr => hQ _ (hp.1 r hr), fun r => ih r (hp.2 r)⟩

theorem Meets.mapError {f : ε → ε'} {Q' : Prog Call Ret ε' α → Prop} (hp : p.Meets bad Q)
    (hQ : ∀ q, Q q → Q' (q.mapError f)) : (p.mapError f).Meets bad Q' := by
  induction p with
  | done a => trivial
  | fail e => trivial
  | call c next ih => exact ⟨fun r hr => hQ _ (hp.1 r hr), fun r => ih r (hp.2 r)⟩

end Meets

section Passing
variable {bad : (c : Call) → Ret c → Prop} {mark : ε → Prop} {p : Prog Call Ret ε α}

abbrev Passes (bad : (c : Call) → Ret c → Prop) (mark : ε → Prop) (p : Prog Call Ret ε α) : Prop :=
  p.Meets bad (Failing mark)

theorem passes_ofExcept (r : Except ε α) : (ofExcept r : Prog Call Ret ε α).Passes bad mark := by
  cases r <;> trivial

theorem passes_check {ε' : Type} (wrap : ε' → ε) (r : Except ε' α) :
    (check wrap r : Prog Call Ret ε α).Passes bad mark := by
  cases r <;> trivial

theorem Meets.followed {f : α → Prog Call Ret ε β} (hp : p.Passes bad mark)
    (hf : ∀ a, (f a).Passes bad mark) : (p.bind f).Passes bad mark := by
  apply hp.bind hf
  intro q hq
  obtain ⟨e, rfl, he⟩ := hq
  exact ⟨e, rfl, he⟩

theorem Meets.wrapped {f : ε → ε} (hp : p.Passes bad mark) (hmark : ∀ e, mark e → mark (f e)) :
    (p.mapError f).Passes bad mark := by
  apply hp.mapError
  intro q hq
  obtain ⟨e, rfl, he⟩ := hq
  exact ⟨f e, rfl, hmark e he⟩

/-- A program passes on what the implementations of its calls pass on. -/
theorem passes_through {Val : Call → Type} {bad' : (c : Call') → Ret' c → Prop}
    {impl : (c : Call) → Prog Call' Ret' ε (Val c)} (himpl : ∀ c, (impl c).Passes bad' mark)
    {p : Prog Call (fun c => Except ε (Val c)) ε α}
    (hp : p.Passes (fun _ r => ∃ e, r = .error e ∧ mark e) mark) :
    (p.through (fun c => (impl c).attempt)).Passes bad' mark := by
  induction p with
  | done a => trivial
  | fail e => trivial
  | call c next ih =>
    have hcall : ((impl c).attempt : Prog Call' Ret' ε (Except ε (Val c))).Meets bad'
        (fun q => ∃ e, q = .done (.error e) ∧ mark e) := by
      apply (himpl c).attempt
      intro q hq
      obtain ⟨e, rfl, he⟩ := hq
      exact ⟨e, rfl, he⟩
    apply hcall.bind (fun r => ih r (hp.2 r))
    intro q hq
    obtain ⟨e, rfl, he⟩ := hq
    obtain ⟨e', hfail, he'⟩ := hp.1 (.error e) ⟨e, rfl, he⟩
    refine ⟨e', ?_, he'⟩
    rw [bind_done, hfail]
    rfl

end Passing
end Prog
end Lib
