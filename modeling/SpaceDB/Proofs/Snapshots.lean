import SpaceDB.Proofs.Versions

namespace SpaceDB.Proofs
open Lib Storage

variable {s s' : Sys} {t u : Nat} {x y : Txn}

/-- What the snapshots say about the order of Begins and Commits. A handle
that committed later than another one is never in that one's snapshot. -/
structure Snapshots (s : Sys) : Prop where
  activeBelow : ∀ {t x v}, s.txns t = some x → v ∈ x.state.activeVersions → v < x.state.version
  activeOnce : ∀ {t u x y v}, s.txns t = some x → s.txns u = some y →
    v ∈ y.state.activeVersions → v < x.state.version → x.state.version < y.state.version →
    v ∈ x.state.activeVersions
  seen : ∀ {t x}, s.txns t = some x → x.seen <+: s.commits
  seenIff : ∀ {t u x y}, s.txns t = some x → s.txns u = some y →
    (u ∈ x.seen ↔ y.status = .committed ∧ y.state.version < x.state.version ∧
      y.state.version ∉ x.state.activeVersions)
  committed : ∀ {t}, t ∈ s.commits ↔ ∃ x, s.txns t = some x ∧ x.status = .committed
  nodup : s.commits.Nodup
  later : s.commits.Pairwise (fun a b => ∀ x, s.txns a = some x → b ∉ x.seen)

theorem snapshots_init : Snapshots Sys.init := by
  refine ⟨?_, ?_, ?_, ?_, ?_, .nil, .nil⟩
  · intro t x v h
    cases h
  · intro t u x y v h
    cases h
  · intro t x h
    cases h
  · intro t u x y h
    cases h
  · intro t
    refine iff_of_false (by simp [Sys.init]) ?_
    intro h
    obtain ⟨x, hx, -⟩ := h
    cases hx

/-- The handles of `s'` are those of `s`, and `new` are the ones that have
committed on the way. -/
structure Continues (s s' : Sys) (new : List Nat) : Prop where
  old : ∀ {u y'}, s'.txns u = some y' → ∃ y, s.txns u = some y ∧ y'.state = y.state ∧
    y'.seen = y.seen ∧ (y'.status = .committed ↔ y.status = .committed ∨ u ∈ new)
  kept : ∀ {u y}, s.txns u = some y → ∃ y', s'.txns u = some y' ∧ y'.state = y.state
  commits : s'.commits = s.commits ++ new

/-- A handle may commit that had not and that every younger snapshot has as
active. -/
def MayCommit (s : Sys) (u : Nat) : Prop :=
  u ∉ s.commits ∧ ∃ z, s.txns u = some z ∧ ∀ {w y}, s.txns w = some y →
    z.state.version < y.state.version → z.state.version ∈ y.state.activeVersions

/-- The order of the commits goes on. -/
theorem Snapshots.continue {new : List Nat} (h : Snapshots s) (hs : Continues s s' new)
    (hnodup : new.Nodup) (hnew : ∀ u ∈ new, MayCommit s u) : Snapshots s' := by
  refine ⟨?_, ?_, ?_, ?_, ?_, ?_, ?_⟩
  · intro u y' v hy' hin
    obtain ⟨y, hy, hst, -, -⟩ := hs.old hy'
    rw [hst] at hin ⊢
    exact h.activeBelow hy hin
  · intro u w y' z' v hy' hz' hin
    obtain ⟨y, hy, hst, -, -⟩ := hs.old hy'
    obtain ⟨z, hz, hsu, -, -⟩ := hs.old hz'
    rw [hsu] at hin
    rw [hst, hsu]
    exact h.activeOnce hy hz hin
  · intro u y' hy'
    obtain ⟨y, hy, -, hseen, -⟩ := hs.old hy'
    rw [hseen, hs.commits]
    exact (h.seen hy).trans (List.prefix_append _ _)
  · intro u w y' z' hy' hz'
    obtain ⟨y, hy, hst, hseen, -⟩ := hs.old hy'
    obtain ⟨z, hz, hsu, -, hcom⟩ := hs.old hz'
    rw [hst, hsu, hseen, hcom, h.seenIff hy hz]
    constructor
    · intro hs
      exact ⟨.inl hs.1, hs.2⟩
    · intro hs
      rcases hs.1 with hcz | hin
      · exact ⟨hcz, hs.2⟩
      · obtain ⟨-, z', hz', hmark⟩ := hnew w hin
        rw [hz] at hz'
        cases hz'
        exact absurd (hmark hy hs.2.1) hs.2.2
  · intro u
    rw [hs.commits, List.mem_append, h.committed]
    constructor
    · intro hu
      obtain ⟨y, hy, hcom⟩ : ∃ y, s.txns u = some y ∧ (y.status = .committed ∨ u ∈ new) := by
        rcases hu with ⟨y, hy, hcom⟩ | hin
        · exact ⟨y, hy, .inl hcom⟩
        · obtain ⟨-, z, hz, -⟩ := hnew u hin
          exact ⟨z, hz, .inr hin⟩
      obtain ⟨y', hy', -⟩ := hs.kept hy
      obtain ⟨z, hz, -, -, hiff⟩ := hs.old hy'
      rw [hy] at hz
      cases hz
      exact ⟨y', hy', hiff.mpr hcom⟩
    · intro hu
      obtain ⟨y', hy', hcom⟩ := hu
      obtain ⟨y, hy, -, -, hiff⟩ := hs.old hy'
      exact (hiff.mp hcom).imp (fun hc => ⟨y, hy, hc⟩) id
  · rw [hs.commits]
    refine h.nodup.append hnodup ?_
    intro u hu hin
    exact (hnew u hin).1 hu
  · have hseen : ∀ {a b y'}, s'.txns a = some y' → b ∈ new → b ∉ y'.seen := by
      intro a b y' hy' hb hin
      obtain ⟨y, hy, -, hseen, -⟩ := hs.old hy'
      rw [hseen] at hin
      exact (hnew b hb).1 ((h.seen hy).subset hin)
    rw [hs.commits, List.pairwise_append]
    refine ⟨?_, ?_, fun a _ b hb y' hy' => hseen hy' hb⟩
    · apply h.later.imp
      intro a b hab y' hy'
      obtain ⟨y, hy, -, hs, -⟩ := hs.old hy'
      rw [hs]
      exact hab y hy
    · apply List.pairwise_of_forall_mem_list
      intro a _ b hb y' hy'
      exact hseen hy' hb

/-- A new handle whose snapshot is the set of markers. -/
theorem Snapshots.begin {st : TransactionState} (h : Snapshots s) (hb : Base s)
    (habove : ∀ {u y}, s.txns u = some y → y.state.version < st.version)
    (hbelow : ∀ v ∈ st.activeVersions, v < st.version)
    (hactive : ∀ {u y v}, s.txns u = some y → v ∈ st.activeVersions → v < y.state.version →
      v ∈ y.state.activeVersions)
    (hdone : ∀ {u y}, s.txns u = some y → y.status = .committed →
      y.state.version ∉ st.activeVersions)
    (htxns : s'.txns = Function.update s.txns s.begins (some ⟨st, .live, [], s.commits⟩))
    (hc : s'.commits = s.commits) : Snapshots s' := by
  have hno : s.txns s.begins = none := by
    cases hx : s.txns s.begins with
    | none => rfl
    | some x => exact absurd (hb.bound hx) (lt_irrefl _)
  have hcase : ∀ {u y'}, s'.txns u = some y' →
      s.txns u = some y' ∨ u = s.begins ∧ y' = ⟨st, .live, [], s.commits⟩ := by
    intro u y' hy'
    rw [htxns, Function.update_apply] at hy'
    by_cases hu : u = s.begins
    · rw [if_pos hu] at hy'
      exact .inr ⟨hu, (Option.some.inj hy').symm⟩
    · rw [if_neg hu] at hy'
      exact .inl hy'
  have hkept : ∀ {u y}, s.txns u = some y → s'.txns u = some y := by
    intro u y hy
    rw [htxns, Function.update_apply, if_neg, hy]
    intro hu
    rw [hu, hno] at hy
    cases hy
  refine ⟨?_, ?_, ?_, ?_, ?_, hc ▸ h.nodup, ?_⟩
  · intro u y v hy hin
    rcases hcase hy with hy | ⟨-, rfl⟩
    · exact h.activeBelow hy hin
    · exact hbelow v hin
  · intro u w y z v hy hz hin hvy hyz
    rcases hcase hy with hy | ⟨-, rfl⟩
    · rcases hcase hz with hz | ⟨-, rfl⟩
      · exact h.activeOnce hy hz hin hvy hyz
      · exact hactive hy hin hvy
    · rcases hcase hz with hz | ⟨-, rfl⟩
      · exact absurd (lt_trans hyz (habove hz)) (lt_irrefl _)
      · exact hin
  · intro u y hy
    rw [hc]
    rcases hcase hy with hy | ⟨-, rfl⟩
    · exact h.seen hy
    · exact List.prefix_refl _
  · intro u w y z hy hz
    rcases hcase hy with hy | ⟨-, rfl⟩
    · rcases hcase hz with hz | ⟨rfl, rfl⟩
      · exact h.seenIff hy hz
      · refine iff_of_false ?_ (fun hx => by cases hx.1)
        intro hin
        obtain ⟨x, hx, -⟩ := h.committed.mp ((h.seen hy).subset hin)
        rw [hno] at hx
        cases hx
    · rcases hcase hz with hz | ⟨rfl, rfl⟩
      · change w ∈ s.commits ↔ _
        rw [h.committed]
        constructor
        · intro hw
          obtain ⟨x, hx, hcom⟩ := hw
          rw [hz] at hx
          cases hx
          exact ⟨hcom, habove hz, hdone hz hcom⟩
        · intro hw
          exact ⟨z, hz, hw.1⟩
      · refine iff_of_false ?_ (fun hx => by cases hx.1)
        intro hin
        obtain ⟨x, hx, -⟩ := h.committed.mp hin
        rw [hno] at hx
        cases hx
  · intro u
    rw [hc, h.committed]
    constructor
    · intro hu
      obtain ⟨x, hx, hcom⟩ := hu
      exact ⟨x, hkept hx, hcom⟩
    · intro hu
      obtain ⟨x, hx, hcom⟩ := hu
      rcases hcase hx with hx | ⟨-, rfl⟩
      · exact ⟨x, hx, hcom⟩
      · cases hcom
  · rw [hc]
    apply (List.Pairwise.and_mem.mp h.later).imp
    intro a b hab y hy
    obtain ⟨ha, hb, hab⟩ := hab
    obtain ⟨z, hz, -⟩ := h.committed.mp ha
    rw [hkept hz] at hy
    cases hy
    exact hab _ hz

end SpaceDB.Proofs
