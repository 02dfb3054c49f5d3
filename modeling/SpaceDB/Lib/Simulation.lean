import SpaceDB.Lib.Refinement

namespace Lib
variable {Call : Type} {Ret : Call → Type} {ε α β σ τ : Type} {h : Handler Call Ret σ}
  {k : Handler Call Ret τ} {R : σ → τ → Prop} {P : Call → Prop}

/-- The calls in `P` are answered alike in related states, which stay related. -/
def SimulatesOn (P : Call → Prop) (h : Handler Call Ret σ) (k : Handler Call Ret τ)
    (R : σ → τ → Prop) : Prop :=
  ∀ c s t, P c → R s t → (h c s).1 = (k c t).1 ∧ R (h c s).2 (k c t).2

namespace Prog
variable {p : Prog Call Ret ε α} {s : σ} {t : τ}

/-- A program all of whose calls are in `P` ends alike. -/
theorem run_simulated (hsim : SimulatesOn P h k R) (hP : ∀ c ∈ p.trace h s, P c) (hr : R s t) :
    (p.run h s).1 = (p.run k t).1 ∧ R (p.run h s).2 (p.run k t).2 := by
  induction p generalizing s t with
  | done a => exact ⟨rfl, hr⟩
  | fail e => exact ⟨rfl, hr⟩
  | call c next ih =>
    rw [trace_call] at hP
    obtain ⟨hc, hnext⟩ := List.forall_mem_cons.mp hP
    obtain ⟨hanswer, hr'⟩ := hsim c s t hc hr
    rw [run_call, run_call, ← hanswer]
    exact ih _ hnext hr'

/-- So does one that is killed on the way. -/
theorem upTo_simulated (hsim : SimulatesOn P h k R) (n : Nat)
    (hP : ∀ c ∈ (p.trace h s).take n, P c) (hr : R s t) : R (p.upTo h n s) (p.upTo k n t) := by
  induction p generalizing n s t with
  | done a => cases n <;> exact hr
  | fail e => cases n <;> exact hr
  | call c next ih =>
    cases n with
    | zero => exact hr
    | succ n =>
      rw [trace_call, List.take_succ_cons] at hP
      obtain ⟨hc, hnext⟩ := List.forall_mem_cons.mp hP
      obtain ⟨hanswer, hr'⟩ := hsim c s t hc hr
      rw [upTo, upTo, ← hanswer]
      exact ih _ n hnext hr'

/-- In related states a program ends alike, and when it ends well, in related
states again and with a result in `Q`. -/
def Coupled (h : Handler Call Ret σ) (k : Handler Call Ret τ) (R : σ → τ → Prop)
    (p : Prog Call Ret ε α) (Q : α → Prop) : Prop :=
  ∀ s t, R s t → (p.run h s).1 = (p.run k t).1 ∧
    ∀ a, (p.run h s).1 = .ok a → Q a ∧ R (p.run h s).2 (p.run k t).2

theorem coupled_done {Q : α → Prop} {a : α} (ha : Q a) :
    Coupled h k R (.done a : Prog Call Ret ε α) Q := by
  intro s t hr
  refine ⟨rfl, fun b hb => ?_⟩
  cases hb
  exact ⟨ha, hr⟩

theorem coupled_ofExcept (r : Except ε α) :
    Coupled h k R (.ofExcept r : Prog Call Ret ε α) fun _ => True := by
  intro s t hr
  rw [run_ofExcept, run_ofExcept]
  exact ⟨rfl, fun a _ => ⟨trivial, hr⟩⟩

/-- Coupled programs one after the other are coupled. -/
theorem Coupled.bind {f : α → Prog Call Ret ε β} {P : α → Prop} {Q : β → Prop}
    (hp : Coupled h k R p P) (hf : ∀ a, P a → Coupled h k R (f a) Q) :
    Coupled h k R (p.bind f) Q := by
  intro s t hr
  obtain ⟨hsame, hok⟩ := hp s t hr
  rw [run_bind, run_bind]
  generalize p.run h s = r at hsame hok ⊢
  generalize p.run k t = r' at hsame hok ⊢
  obtain ⟨result, s'⟩ := r
  obtain ⟨result', t'⟩ := r'
  obtain rfl : result = result' := hsame
  cases result with
  | ok a =>
    obtain ⟨ha, hr'⟩ := hok a rfl
    exact hf a ha s' t' hr'
  | error e => exact ⟨rfl, fun _ hb => by cases hb⟩

theorem Coupled.mapError {ε' : Type} {f : ε → ε'} {Q : α → Prop} (hp : Coupled h k R p Q) :
    Coupled h k R (p.mapError f) Q := by
  intro s t hr
  obtain ⟨hsame, hok⟩ := hp s t hr
  rw [run_mapError, run_mapError, ← hsame]
  refine ⟨rfl, fun a ha => hok a ?_⟩
  cases hrun : (p.run h s).1 with
  | ok b =>
    rw [hrun] at ha
    cases ha
    rfl
  | error e =>
    rw [hrun] at ha
    cases ha

/-- What is done with the result makes no call. -/
theorem upTo_map (p : Prog Call Ret ε α) (f : α → β) (n : Nat) (s : σ) :
    (p.bind fun a => .done (f a)).upTo h n s = p.upTo h n s := by
  rw [upTo_state, upTo_state, trace_map]

end Prog
end Lib
