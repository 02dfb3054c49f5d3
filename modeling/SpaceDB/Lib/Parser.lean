import Mathlib.Data.List.Forall2
import Mathlib.Tactic.SplitIfs

namespace Lib
variable {τ ε α β : Type}

def Parser (τ ε α : Type) := List τ → Except ε (α × List τ)

namespace Parser

def bind (p : Parser τ ε α) (f : α → Parser τ ε β) : Parser τ ε β := fun ts =>
  match p ts with
  | .ok (a, rest) => f a rest
  | .error e => .error e

instance : Monad (Parser τ ε) where
  pure a := fun ts => .ok (a, ts)
  bind := bind

def fail (e : ε) : Parser τ ε α := fun _ => .error e

def mapError {ε' : Type} (f : ε → ε') (p : Parser τ ε α) : Parser τ ε' α := fun ts =>
  (p ts).mapError f

def fuelled (loop : Nat → Parser τ ε α) : Parser τ ε α := fun ts => loop ts.length ts

theorem bind_apply {p : Parser τ ε α} {a : α} {ts rest : List τ} (h : p ts = .ok (a, rest))
    (f : α → Parser τ ε β) : (p >>= f) ts = f a rest := by
  change Parser.bind p f ts = f a rest
  rw [Parser.bind, h]

theorem mapError_apply {ε' : Type} {f : ε → ε'} {p : Parser τ ε α} {a : α} {ts rest : List τ}
    (h : p ts = .ok (a, rest)) : p.mapError f ts = .ok (a, rest) := by
  unfold mapError
  rw [h]
  rfl

/-- From tokens that satisfy `I` the parser makes a result that satisfies `Q` and
leaves tokens that satisfy `J`, or it fails with an error that satisfies `E`. -/
def Yields (E : ε → Prop) (I : List τ → Prop) (p : Parser τ ε α) (Q : α → Prop)
    (J : α → List τ → Prop) : Prop :=
  ∀ ts, I ts → match p ts with
    | .ok (a, rest) => Q a ∧ J a rest
    | .error e => E e

section Yields
variable {E : ε → Prop} {I I' : List τ → Prop} {p q : Parser τ ε α} {P Q Q' : α → Prop}
  {J J' : α → List τ → Prop}

theorem yields_pure {a : α} (hQ : Q a) (hJ : ∀ ts, I ts → J a ts) :
    (pure a : Parser τ ε α).Yields E I Q J := fun ts hts => ⟨hQ, hJ ts hts⟩

theorem yields_fail {e : ε} (h : E e) : (fail e : Parser τ ε α).Yields E I Q J := fun _ _ => h

/-- The rule for two parsers one after the other. -/
theorem Yields.bind {f : α → Parser τ ε β} {R : β → Prop} {K : β → List τ → Prop}
    (hp : p.Yields E I P J) (hf : ∀ a, P a → (f a).Yields E (J a) R K) :
    (p >>= f).Yields E I R K := by
  intro ts hts
  have h := hp ts hts
  change match Parser.bind p f ts with
    | .ok (b, rest) => R b ∧ K b rest
    | .error e => E e
  unfold Parser.bind
  cases hr : p ts with
  | error e =>
    rw [hr] at h
    exact h
  | ok r =>
    rw [hr] at h
    exact hf r.1 h.1 r.2 h.2

theorem Yields.mono (h : p.Yields E I Q J) (hI : ∀ ts, I' ts → I ts) (hQ : ∀ a, Q a → Q' a)
    (hJ : ∀ a ts, J a ts → J' a ts) : p.Yields E I' Q' J' := by
  intro ts hts
  have h := h ts (hI ts hts)
  cases hr : p ts with
  | error e =>
    rw [hr] at h
    exact h
  | ok r =>
    rw [hr] at h
    exact ⟨hQ r.1 h.1, hJ r.1 r.2 h.2⟩

theorem Yields.mapError {ε' : Type} {E' : ε' → Prop} {f : ε → ε'} (h : p.Yields E I Q J)
    (hf : ∀ e, E e → E' (f e)) : (p.mapError f).Yields E' I Q J := by
  intro ts hts
  have h := h ts hts
  unfold Parser.mapError
  cases hr : p ts with
  | error e =>
    rw [hr] at h
    exact hf e h
  | ok r =>
    rw [hr] at h
    exact h

theorem Yields.ite {c : Prop} [Decidable c] (hp : p.Yields E I Q J) (hq : q.Yields E I Q J) :
    (if c then p else q).Yields E I Q J := by
  split_ifs
  · exact hp
  · exact hq

end Yields

def Starts (P : τ → Prop) (ts : List τ) : Prop := ∃ t rest, ts = t :: rest ∧ P t

/-- On tokens that spell the words, and before a token that satisfies `P`, the
parser makes `a` and leaves that token. -/
def Reads {ω : Type} (R : ω → τ → Prop) (p : Parser τ ε α) (ws : List ω) (a : α) (P : τ → Prop) :
    Prop :=
  ∀ ts rest, List.Forall₂ R ws ts → Starts P rest → p (ts ++ rest) = .ok (a, rest)

/-- The words, before a token that satisfies `Q`, begin with one that satisfies `P`. -/
def Leads {ω : Type} (R : ω → τ → Prop) (P : τ → Prop) (ws : List ω) (Q : τ → Prop) : Prop :=
  match ws with
  | [] => ∀ t, Q t → P t
  | w :: _ => ∀ t, R w t → P t

section Reads
variable {ω : Type} {R : ω → τ → Prop} {p : Parser τ ε α} {ws ws' : List ω} {a : α}
  {P Q : τ → Prop}

theorem Starts.mono {ts : List τ} (h : Starts P ts) (hPQ : ∀ t, P t → Q t) : Starts Q ts := by
  obtain ⟨t, rest, rfl, ht⟩ := h
  exact ⟨t, rest, rfl, hPQ t ht⟩

theorem Leads.starts {ts rest : List τ} (h : Leads R P ws Q) (hts : List.Forall₂ R ws ts)
    (hrest : Starts Q rest) : Starts P (ts ++ rest) := by
  cases hts with
  | nil => exact hrest.mono h
  | cons hw _ => exact ⟨_, _, rfl, h _ hw⟩

theorem Leads.append {M : τ → Prop} (h : Leads R P ws M) (h' : Leads R M ws' Q) :
    Leads R P (ws ++ ws') Q := by
  cases ws with
  | cons w ws => exact h
  | nil =>
    cases ws' with
    | nil => exact fun t ht => h t (h' t ht)
    | cons w ws' => exact fun t ht => h t (h' t ht)

theorem reads_pure : Reads R (pure a : Parser τ ε α) [] a P := by
  intro ts rest hts _
  cases hts
  rfl

theorem Reads.mono (h : Reads R p ws a P) (hQP : ∀ t, Q t → P t) : Reads R p ws a Q :=
  fun ts rest hts hrest => h ts rest hts (hrest.mono hQP)

theorem Reads.mapError {ε' : Type} (f : ε → ε') (h : Reads R p ws a P) :
    Reads R (p.mapError f) ws a P :=
  fun ts rest hts hrest => mapError_apply (h ts rest hts hrest)

theorem forall₂_split {ts : List τ} (h : List.Forall₂ R (ws ++ ws') ts) :
    ∃ us vs, ts = us ++ vs ∧ List.Forall₂ R ws us ∧ List.Forall₂ R ws' vs := by
  induction ws generalizing ts with
  | nil => exact ⟨[], ts, rfl, .nil, h⟩
  | cons w ws ih =>
    cases h with
    | cons hw htail =>
      obtain ⟨us, vs, rfl, hus, hvs⟩ := ih htail
      exact ⟨_ :: us, vs, rfl, .cons hw hus, hvs⟩

theorem forall₂_mem {ts : List τ} (h : List.Forall₂ R ws ts) {w : ω} (hw : w ∈ ws) :
    ∃ t ∈ ts, R w t := by
  induction h with
  | nil => cases hw
  | cons hhead _ ih =>
    rcases List.mem_cons.mp hw with rfl | hw
    · exact ⟨_, List.mem_cons_self, hhead⟩
    · obtain ⟨t, ht, hwt⟩ := ih hw
      exact ⟨t, List.mem_cons_of_mem _ ht, hwt⟩

theorem Reads.bind {f : α → Parser τ ε β} {b : β} (hp : Reads R p ws a P)
    (hlead : Leads R P ws' Q) (hf : Reads R (f a) ws' b Q) : Reads R (p >>= f) (ws ++ ws') b Q := by
  intro ts rest hts hrest
  obtain ⟨us, vs, rfl, hus, hvs⟩ := forall₂_split hts
  rw [List.append_assoc, bind_apply (hp us (vs ++ rest) hus (hlead.starts hvs hrest))]
  exact hf vs rest hvs hrest

/-- A parser of one word does not look beyond it. -/
theorem Reads.cons {f : α → Parser τ ε β} {b : β} {w : ω} (hp : Reads R p [w] a (fun _ => True))
    (hf : Reads R (f a) ws b P) : Reads R (p >>= f) (w :: ws) b P := by
  apply Reads.bind hp _ hf
  cases ws with
  | nil => exact fun _ _ => trivial
  | cons _ _ => exact fun _ _ => trivial

theorem Reads.bind_pure (f : α → β) (hp : Reads R p ws a P) :
    Reads R (p >>= fun a => pure (f a)) ws (f a) P := by
  intro ts rest hts hrest
  rw [bind_apply (hp ts rest hts hrest)]
  rfl

theorem Reads.fuelled {loop : Nat → Parser τ ε α}
    (h : ∀ fuel, ws.length < fuel → Reads R (loop fuel) ws a P) :
    Reads R (fuelled loop) ws a P := by
  intro ts rest hts hrest
  apply h _ _ ts rest hts hrest
  obtain ⟨t, rest', rfl, -⟩ := hrest
  simp [hts.length_eq]

end Reads

end Parser
end Lib
