import SpaceDB.Lib.Parser

namespace Lib
variable {τ ε α β : Type}

namespace Parser

/-- On lists that `I` relates the two parsers fail both, or they succeed both and
`Q` relates the results and what is left. -/
def Twin (I : List τ → List τ → Prop) (p q : Parser τ ε α) (Q : α → α → List τ → List τ → Prop) :
    Prop :=
  ∀ ts us, I ts us →
    (∃ e e', p ts = .error e ∧ q us = .error e') ∨
      ∃ a b ts' us', p ts = .ok (a, ts') ∧ q us = .ok (b, us') ∧ Q a b ts' us'

variable {I I' : List τ → List τ → Prop} {p q : Parser τ ε α}
    {Q Q' : α → α → List τ → List τ → Prop}

theorem twin_pure {a b : α} (h : ∀ ts us, I ts us → Q a b ts us) :
    Twin I (pure a : Parser τ ε α) (pure b) Q :=
  fun ts us hts => .inr ⟨a, b, ts, us, rfl, rfl, h ts us hts⟩

theorem twin_fail (e e' : ε) : Twin I (fail e : Parser τ ε α) (fail e') Q :=
  fun _ _ _ => .inl ⟨e, e', rfl, rfl⟩

theorem bind_error {e : ε} {ts : List τ} (h : p ts = .error e) (f : α → Parser τ ε β) :
    (p >>= f) ts = .error e := by
  change Parser.bind p f ts = .error e
  rw [Parser.bind, h]

theorem bind_ok {f : α → Parser τ ε β} {b : β} {ts rest : List τ}
    (h : (p >>= f) ts = .ok (b, rest)) :
    ∃ a ts', p ts = .ok (a, ts') ∧ f a ts' = .ok (b, rest) := by
  cases hp : p ts with
  | error e =>
    rw [bind_error hp] at h
    cases h
  | ok r =>
    rw [bind_apply hp] at h
    exact ⟨r.1, r.2, rfl, h⟩

theorem Twin.bind {f g : α → Parser τ ε β} {R : β → β → List τ → List τ → Prop} (hp : Twin I p q Q)
    (hf : ∀ a b, Twin (Q a b) (f a) (g b) R) : Twin I (p >>= f) (q >>= g) R := by
  intro ts us hts
  rcases hp ts us hts with ⟨e, e', hpe, hqe⟩ | ⟨a, b, ts', us', hpa, hqb, hQ⟩
  · exact .inl ⟨e, e', bind_error hpe f, bind_error hqe g⟩
  · rw [bind_apply hpa, bind_apply hqb]
    exact hf a b ts' us' hQ

theorem Twin.mono (h : Twin I p q Q) (hI : ∀ ts us, I' ts us → I ts us)
    (hQ : ∀ a b ts us, Q a b ts us → Q' a b ts us) : Twin I' p q Q' := by
  intro ts us hts
  rcases h ts us (hI ts us hts) with herror | ⟨a, b, ts', us', hpa, hqb, hab⟩
  · exact .inl herror
  · exact .inr ⟨a, b, ts', us', hpa, hqb, hQ a b ts' us' hab⟩

theorem twin_ite {c c' : Prop} [Decidable c] [Decidable c'] {p' q' : Parser τ ε α} (hc : c ↔ c')
    (h : c → Twin I p q Q) (h' : ¬ c → Twin I p' q' Q) :
    Twin I (if c then p else p') (if c' then q else q') Q := by
  by_cases hpos : c
  · rw [if_pos hpos, if_pos (hc.mp hpos)]
    exact h hpos
  · rw [if_neg hpos, if_neg (mt hc.mpr hpos)]
    exact h' hpos

theorem mapError_error {ε' : Type} {f : ε → ε'} {e : ε} {ts : List τ} (h : p ts = .error e) :
    p.mapError f ts = .error (f e) := by
  unfold mapError
  rw [h]
  rfl

theorem Twin.mapError {ε' : Type} {f g : ε → ε'} (h : Twin I p q Q) :
    Twin I (p.mapError f) (q.mapError g) Q := by
  intro ts us hts
  rcases h ts us hts with ⟨e, e', hpe, hqe⟩ | ⟨a, b, ts', us', hpa, hqb, hab⟩
  · exact .inl ⟨f e, g e', mapError_error hpe, mapError_error hqe⟩
  · exact .inr ⟨a, b, ts', us', mapError_apply hpa, mapError_apply hqb, hab⟩

end Parser
end Lib
