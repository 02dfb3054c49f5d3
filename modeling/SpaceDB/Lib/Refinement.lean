import SpaceDB.Lib.Program

namespace Lib
variable {Call : Type} {Ret : Call → Type} {σ τ : Type} {h : Handler Call Ret σ}
  {k : Handler Call Ret τ} {R : σ → τ → Prop}

def answers (h : Handler Call Ret σ) : List Call → σ → List ((c : Call) × Ret c)
  | [], _ => []
  | c :: cs, s => ⟨c, (h c s).1⟩ :: answers h cs (h c s).2

/-- Related states answer every call alike and stay related. -/
def Simulates (h : Handler Call Ret σ) (k : Handler Call Ret τ) (R : σ → τ → Prop) : Prop :=
  ∀ c s t, R s t → (h c s).1 = (k c t).1 ∧ R (h c s).2 (k c t).2

theorem Simulates.answers (hsim : Simulates h k R) (cs : List Call) {s : σ} {t : τ} (hr : R s t) :
    answers h cs s = answers k cs t := by
  induction cs generalizing s t with
  | nil => rfl
  | cons c cs ih =>
    obtain ⟨hanswer, hnext⟩ := hsim c s t hr
    rw [Lib.answers, Lib.answers, hanswer, ih hnext]

theorem Simulates.replay (hsim : Simulates h k R) (cs : List Call) {s : σ} {t : τ} (hr : R s t) :
    R (Prog.replay h cs s) (Prog.replay k cs t) := by
  induction cs generalizing s t with
  | nil => exact hr
  | cons c cs ih => exact ih (hsim c s t hr).2

/-- Two worlds that agree on the calls of a program make it end alike, and in
related states. -/
theorem Prog.Guarded.run_refines {ε α : Type} {P : Call → Prop} {Bad : (c : Call) → Ret c → Prop}
    {p : Prog Call Ret ε α} (hp : p.Guarded P Bad)
    (hsim : ∀ c s t, P c → R s t → (h c s).1 = (k c t).1 ∧ R (h c s).2 (k c t).2) {s : σ} {t : τ}
    (hr : R s t) : (p.run h s).1 = (p.run k t).1 ∧ R (p.run h s).2 (p.run k t).2 := by
  induction p generalizing s t with
  | done a => exact ⟨rfl, hr⟩
  | fail e => exact ⟨rfl, hr⟩
  | call c next ih =>
    obtain ⟨hanswer, hnext⟩ := hsim c s t hp.1 hr
    rw [Prog.run_call, Prog.run_call, hanswer]
    exact ih _ (hp.2.2 _) hnext

end Lib
