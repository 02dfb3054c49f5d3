import Mathlib.Logic.Basic

namespace Lib

/-- A program that acts on the world only by calls. The world answers call `c`
with a value of `Ret c`; a program that ends badly carries its error. -/
inductive Prog (Call : Type) (Ret : Call → Type) (ε α : Type) where
  | done (a : α)
  | fail (e : ε)
  | call (c : Call) (next : Ret c → Prog Call Ret ε α)

abbrev Handler (Call : Type) (Ret : Call → Type) (σ : Type) := (c : Call) → σ → Ret c × σ

namespace Prog
variable {Call : Type} {Ret : Call → Type} {ε α β σ τ : Type}

def bind : Prog Call Ret ε α → (α → Prog Call Ret ε β) → Prog Call Ret ε β
  | .done a, f => f a
  | .fail e, _ => .fail e
  | .call c next, f => .call c (fun r => (next r).bind f)

instance : Monad (Prog Call Ret ε) where
  pure := .done
  bind := bind

def perform (c : Call) : Prog Call Ret ε (Ret c) := .call c .done

def ofExcept : Except ε α → Prog Call Ret ε α
  | .ok a => .done a
  | .error e => .fail e

/-- Goes on with the answer of a call, or ends with its error wrapped. -/
def check {ε' : Type} (wrap : ε' → ε) : Except ε' α → Prog Call Ret ε α
  | .ok a => .done a
  | .error e => .fail (wrap e)

def attempt {ε' : Type} : Prog Call Ret ε' α → Prog Call Ret ε (Except ε' α)
  | .done a => .done (.ok a)
  | .fail e => .done (.error e)
  | .call c next => .call c (fun r => (next r).attempt)

def mapError {ε' : Type} (f : ε' → ε) : Prog Call Ret ε' α → Prog Call Ret ε α
  | .done a => .done a
  | .fail e => .fail (f e)
  | .call c next => .call c (fun r => (next r).mapError f)

def run (h : Handler Call Ret σ) : Prog Call Ret ε α → σ → Except ε α × σ
  | .done a, s => (.ok a, s)
  | .fail e, s => (.error e, s)
  | .call c next, s => (next (h c s).1).run h (h c s).2

/-- The world as a program leaves it that is killed after at most `n` calls. -/
def upTo (h : Handler Call Ret σ) : Nat → Prog Call Ret ε α → σ → σ
  | n + 1, .call c next, s => upTo h n (next (h c s).1) (h c s).2
  | _, _, s => s

def trace (h : Handler Call Ret σ) : Prog Call Ret ε α → σ → List Call
  | .done _, _ => []
  | .fail _, _ => []
  | .call c next, s => c :: (next (h c s).1).trace h (h c s).2

/-- The state after a list of calls whose answers nobody looks at. -/
def replay (h : Handler Call Ret σ) (cs : List Call) (s : σ) : σ :=
  cs.foldl (fun s c => (h c s).2) s

/-- Every call a program can make satisfies `P`, and the program gives up at
the first bad answer. -/
def Guarded (P : Call → Prop) (Bad : (c : Call) → Ret c → Prop) : Prog Call Ret ε α → Prop
  | .done _ => True
  | .fail _ => True
  | .call c next =>
    P c ∧ (∀ r, Bad c r → ∃ e, next r = .fail e) ∧ ∀ r, (next r).Guarded P Bad

variable (h : Handler Call Ret σ)

@[simp] theorem pure_eq (a : α) : (pure a : Prog Call Ret ε α) = .done a := rfl

@[simp] theorem bind_eq (p : Prog Call Ret ε α) (f : α → Prog Call Ret ε β) :
    p >>= f = p.bind f := rfl

@[simp] theorem bind_done (a : α) (f : α → Prog Call Ret ε β) : (done a).bind f = f a := rfl

@[simp] theorem bind_fail (e : ε) (f : α → Prog Call Ret ε β) : (fail e).bind f = .fail e := rfl

@[simp] theorem bind_call (c : Call) (next : Ret c → Prog Call Ret ε α)
    (f : α → Prog Call Ret ε β) :
    (call c next).bind f = .call c (fun r => (next r).bind f) := rfl

@[simp] theorem ofExcept_ok (a : α) : (ofExcept (.ok a) : Prog Call Ret ε α) = .done a := rfl

@[simp] theorem ofExcept_error (e : ε) : (ofExcept (.error e) : Prog Call Ret ε α) = .fail e := rfl

@[simp] theorem check_ok {ε' : Type} (wrap : ε' → ε) (a : α) :
    (check wrap (.ok a) : Prog Call Ret ε α) = .done a := rfl

@[simp] theorem check_error {ε' : Type} (wrap : ε' → ε) (e : ε') :
    (check wrap (.error e) : Prog Call Ret ε α) = .fail (wrap e) := rfl

@[simp] theorem run_done (a : α) (s : σ) :
    (done a : Prog Call Ret ε α).run h s = (.ok a, s) := rfl

@[simp] theorem run_fail (e : ε) (s : σ) :
    (fail e : Prog Call Ret ε α).run h s = (.error e, s) := rfl

@[simp] theorem run_call (c : Call) (next : Ret c → Prog Call Ret ε α) (s : σ) :
    (call c next).run h s = (next (h c s).1).run h (h c s).2 := rfl

@[simp] theorem run_ofExcept (r : Except ε α) (s : σ) :
    (ofExcept r : Prog Call Ret ε α).run h s = (r, s) := by
  cases r <;> rfl

@[simp] theorem trace_done (a : α) (s : σ) : (done a : Prog Call Ret ε α).trace h s = [] := rfl

@[simp] theorem trace_fail (e : ε) (s : σ) : (fail e : Prog Call Ret ε α).trace h s = [] := rfl

@[simp] theorem trace_call (c : Call) (next : Ret c → Prog Call Ret ε α) (s : σ) :
    (call c next).trace h s = c :: (next (h c s).1).trace h (h c s).2 := rfl

@[simp] theorem trace_ofExcept (r : Except ε α) (s : σ) :
    (ofExcept r : Prog Call Ret ε α).trace h s = [] := by
  cases r <;> rfl

@[simp] theorem replay_nil (s : σ) : replay h [] s = s := rfl

@[simp] theorem replay_cons (c : Call) (cs : List Call) (s : σ) :
    replay h (c :: cs) s = replay h cs (h c s).2 := rfl

theorem replay_append (cs ds : List Call) (s : σ) :
    replay h (cs ++ ds) s = replay h ds (replay h cs s) := List.foldl_append

/-- A program after another one, which may have failed. -/
theorem run_bind (p : Prog Call Ret ε α) (f : α → Prog Call Ret ε β) (s : σ) :
    (p.bind f).run h s =
      match p.run h s with
      | (.ok a, s') => (f a).run h s'
      | (.error e, s') => (.error e, s') := by
  induction p generalizing s with
  | done a => rfl
  | fail e => rfl
  | call c next ih => exact ih (h c s).1 (h c s).2

theorem run_bind_ok {p : Prog Call Ret ε α} {a : α} {s s' : σ}
    (hp : p.run h s = (.ok a, s')) (f : α → Prog Call Ret ε β) :
    (p.bind f).run h s = (f a).run h s' := by rw [run_bind, hp]

theorem run_bind_error {p : Prog Call Ret ε α} {e : ε} {s s' : σ}
    (hp : p.run h s = (.error e, s')) (f : α → Prog Call Ret ε β) :
    (p.bind f).run h s = (.error e, s') := by rw [run_bind, hp]

/-- A sequence that has ended well has gone through its first part. -/
theorem run_bind_inv {p : Prog Call Ret ε α} {f : α → Prog Call Ret ε β} {b : β} {s s'' : σ}
    (hrun : (p.bind f).run h s = (.ok b, s'')) :
    ∃ a s', p.run h s = (.ok a, s') ∧ (f a).run h s' = (.ok b, s'') := by
  rw [run_bind] at hrun
  generalize p.run h s = r at hrun ⊢
  obtain ⟨result, s'⟩ := r
  cases result with
  | ok a => exact ⟨a, s', rfl, hrun⟩
  | error e => cases hrun

theorem run_ofExcept_bind_inv {r : Except ε α} {f : α → Prog Call Ret ε β} {b : β} {s s' : σ}
    (hrun : ((ofExcept r).bind f).run h s = (.ok b, s')) :
    ∃ a, r = .ok a ∧ (f a).run h s = (.ok b, s') := by
  cases r with
  | ok a => exact ⟨a, rfl, hrun⟩
  | error e => cases hrun

theorem trace_bind_ok {p : Prog Call Ret ε α} {a : α} {s s' : σ}
    (hp : p.run h s = (.ok a, s')) (f : α → Prog Call Ret ε β) :
    (p.bind f).trace h s = p.trace h s ++ (f a).trace h s' := by
  induction p generalizing s with
  | done b =>
    simp only [run_done, Prod.mk.injEq, Except.ok.injEq] at hp
    rw [hp.1, hp.2]
    rfl
  | fail e => simp at hp
  | call c next ih => simpa using ih (h c s).1 hp

theorem run_map (p : Prog Call Ret ε α) (f : α → β) (s : σ) :
    (p.bind (fun a => .done (f a))).run h s = ((p.run h s).1.map f, (p.run h s).2) := by
  induction p generalizing s with
  | done a => rfl
  | fail e => rfl
  | call c next ih => exact ih (h c s).1 (h c s).2

theorem trace_map (p : Prog Call Ret ε α) (f : α → β) (s : σ) :
    (p.bind (fun a => .done (f a))).trace h s = p.trace h s := by
  induction p generalizing s with
  | done a => rfl
  | fail e => rfl
  | call c next ih => exact congrArg _ (ih (h c s).1 (h c s).2)

theorem run_attempt {ε' : Type} (p : Prog Call Ret ε' α) (s : σ) :
    (p.attempt : Prog Call Ret ε (Except ε' α)).run h s = (.ok (p.run h s).1, (p.run h s).2) := by
  induction p generalizing s with
  | done a => rfl
  | fail e => rfl
  | call c next ih => exact ih (h c s).1 (h c s).2

theorem run_mapError {ε' : Type} (f : ε' → ε) (p : Prog Call Ret ε' α) (s : σ) :
    (p.mapError f).run h s = ((p.run h s).1.mapError f, (p.run h s).2) := by
  induction p generalizing s with
  | done a => rfl
  | fail e => rfl
  | call c next ih => exact ih (h c s).1 (h c s).2

theorem trace_attempt {ε' : Type} (p : Prog Call Ret ε' α) (s : σ) :
    (p.attempt : Prog Call Ret ε (Except ε' α)).trace h s = p.trace h s := by
  induction p generalizing s with
  | done a => rfl
  | fail e => rfl
  | call c next ih => exact congrArg _ (ih (h c s).1 (h c s).2)

/-- Only the calls change the world. -/
theorem run_state (p : Prog Call Ret ε α) (s : σ) :
    (p.run h s).2 = replay h (p.trace h s) s := by
  induction p generalizing s with
  | done a => rfl
  | fail e => rfl
  | call c next ih => exact ih (h c s).1 (h c s).2

/-- A killed program has made a prefix of the calls of its complete execution. -/
theorem upTo_state (n : Nat) (p : Prog Call Ret ε α) (s : σ) :
    p.upTo h n s = replay h ((p.trace h s).take n) s := by
  induction p generalizing s n with
  | done a => cases n <;> rfl
  | fail e => cases n <;> rfl
  | call c next ih =>
    cases n with
    | zero => rfl
    | succ n => exact ih (h c s).1 n (h c s).2

/-- What every call of a list keeps, the list keeps. -/
theorem replay_keeps {P : Call → Prop} {Q : σ → Prop} {cs : List Call}
    (hstep : ∀ c s, P c → Q s → Q (h c s).2) (hcs : ∀ c ∈ cs, P c) {s : σ} (hs : Q s) :
    Q (replay h cs s) := by
  induction cs generalizing s with
  | nil => exact hs
  | cons c cs ih =>
    exact ih (fun c' hc' => hcs c' (List.mem_cons_of_mem _ hc'))
      (hstep c s (hcs c List.mem_cons_self) hs)

section Guarded
variable {P : Call → Prop} {Bad : (c : Call) → Ret c → Prop} {p : Prog Call Ret ε α}

/-- What guards both parts guards the whole. -/
theorem Guarded.bind {f : α → Prog Call Ret ε β} (hp : p.Guarded P Bad)
    (hf : ∀ a, (f a).Guarded P Bad) : (p.bind f).Guarded P Bad := by
  induction p with
  | done a => exact hf a
  | fail e => trivial
  | call c next ih =>
    refine ⟨hp.1, ?_, fun r => ih r (hp.2.2 r)⟩
    intro r hr
    obtain ⟨e, he⟩ := hp.2.1 r hr
    exact ⟨e, by simp [he]⟩

theorem Guarded.mapError {ε' : Type} {f : ε → ε'} (hp : p.Guarded P Bad) :
    (p.mapError f).Guarded P Bad := by
  induction p with
  | done a => trivial
  | fail e => trivial
  | call c next ih =>
    refine ⟨hp.1, ?_, fun r => ih r (hp.2.2 r)⟩
    intro r hr
    obtain ⟨e, he⟩ := hp.2.1 r hr
    exact ⟨f e, by simp [he, Prog.mapError]⟩

theorem guarded_check {ε' : Type} (wrap : ε' → ε) (r : Except ε' α) :
    (check wrap r : Prog Call Ret ε α).Guarded P Bad := by
  cases r <;> trivial

theorem guarded_ofExcept (r : Except ε α) :
    (ofExcept r : Prog Call Ret ε α).Guarded P Bad := by
  cases r <;> trivial

/-- The calls of a run are among those that a program can make. -/
theorem Guarded.trace (hp : p.Guarded P Bad) (s : σ) : ∀ c ∈ p.trace h s, P c := by
  induction p generalizing s with
  | done a => simp
  | fail e => simp
  | call c next ih =>
    intro c' hc'
    rcases List.mem_cons.mp hc' with rfl | hc'
    · exact hp.1
    · exact ih _ (hp.2.2 _) _ c' hc'

theorem Guarded.run {Q : σ → Prop} (hp : p.Guarded P Bad)
    (hstep : ∀ c s, P c → Q s → Q (h c s).2) {s : σ} (hs : Q s) : Q (p.run h s).2 := by
  rw [run_state]
  exact replay_keeps h hstep (hp.trace h s) hs

end Guarded

end Prog
end Lib
