import SpaceDB.Proofs.LostUpdates

namespace SpaceDB.Proofs
open Lib Storage

variable {s : Sys} {t u : Nat} {x y : Txn}

/-- Conditions on the writes of a transaction, in terms of the database it
began with, that make them keep `inv` in any later database that has not
changed what they overwrite. `grows` is what databases keep in between. -/
structure Merges (inv : (Bytes → Slice) → Prop) (ok : (Bytes → Slice) → Bytes × Slice → Prop)
    (grows : (Bytes → Slice) → (Bytes → Slice) → Prop) : Prop where
  empty : inv (fun _ => none)
  refl : ∀ db, grows db db
  trans : ∀ {a b c}, grows a b → grows b c → grows a c
  merge : ∀ {base db ws}, inv base → inv db → grows base db → (∀ w ∈ ws, ok base w) →
    (∀ w ∈ ws, db w.1 = base w.1) → inv (applyWrites db ws) ∧ grows db (applyWrites db ws)

/-- The same with a condition on all the writes of a transaction together. -/
structure Absorbs (inv : (Bytes → Slice) → Prop)
    (good : (Bytes → Slice) → List (Bytes × Slice) → Prop)
    (grows : (Bytes → Slice) → (Bytes → Slice) → Prop) : Prop where
  empty : inv (fun _ => none)
  refl : ∀ db, grows db db
  trans : ∀ {a b c}, grows a b → grows b c → grows a c
  merge : ∀ {base db ws}, inv base → inv db → grows base db → good base ws →
    (∀ w ∈ ws, db w.1 = base w.1) → inv (applyWrites db ws) ∧ grows db (applyWrites db ws)

theorem Merges.absorbs {inv : (Bytes → Slice) → Prop} {ok : (Bytes → Slice) → Bytes × Slice → Prop}
    {grows : (Bytes → Slice) → (Bytes → Slice) → Prop} (hm : Merges inv ok grows) :
    Absorbs inv (fun base ws => ∀ w ∈ ws, ok base w) grows :=
  ⟨hm.empty, hm.refl, hm.trans, hm.merge⟩

theorem lastWrite_none {ws : List (Bytes × Slice)} {k : Bytes} (h : k ∉ ws.map Prod.fst) :
    lastWrite ws k = none := by
  unfold lastWrite
  rw [Option.map_eq_none_iff, List.find?_eq_none]
  intro w hw heq
  exact h (List.mem_map.mpr ⟨w, List.mem_reverse.mp hw, of_decide_eq_true heq⟩)

theorem lastWrite_mem {ws : List (Bytes × Slice)} {k : Bytes} {v : Slice}
    (h : lastWrite ws k = some v) : (k, v) ∈ ws := by
  obtain ⟨w, hw, rfl⟩ := Option.map_eq_some_iff.mp h
  have hkey : w.1 = k := by simpa using List.find?_some hw
  exact hkey ▸ List.mem_reverse.mp (List.mem_of_find?_eq_some hw)

/-- Transactions that do not write a key do not change it. -/
theorem database_skip {us vs : List Nat} {k : Bytes}
    (h : ∀ v ∈ vs, k ∉ (writesOf s v).map Prod.fst) :
    s.database (us ++ vs) k = s.database us k := by
  induction vs using List.reverseRecOn with
  | nil => rw [List.append_nil]
  | append_singleton vs v ih =>
    rw [← List.append_assoc, database_append, lastWrite_none (h v (by simp)), Option.getD_none]
    exact ih (fun w hw => h w (by simp [hw]))

theorem database_snoc (us : List Nat) (hy : s.txns u = some y) :
    s.database (us ++ [u]) = applyWrites (s.database us) y.writes := by
  funext k
  rw [database_append, writesOf_eq hy, applyWrites_eq]

/-- A transaction that commits after `us` had begun with a part of `us`, and
nothing that it writes has been written since. -/
theorem Inv.committed_after {us : List Nat} (h : Inv s) (hus : us ++ [u] <+: s.commits) :
    ∃ y vs, s.txns u = some y ∧ us = y.seen ++ vs ∧
      ∀ w ∈ y.writes, s.database us w.1 = s.database y.seen w.1 := by
  obtain ⟨y, hy, hyc⟩ := h.committed.mp (hus.subset (show u ∈ us ++ [u] by simp))
  have hself : u ∉ y.seen := fun hin => lt_irrefl _ ((h.seenIff hy hy).mp hin).2.1
  have hseen : y.seen <+: us := by
    rcases List.prefix_or_prefix_of_prefix (h.seen hy) hus with hle | hle
    · rcases List.prefix_concat_iff.mp hle with heq | hle
      · exact absurd (heq ▸ by simp) hself
      · exact hle
    · exact absurd (hle.subset (by simp)) hself
  obtain ⟨vs, rfl⟩ := hseen
  refine ⟨y, vs, hy, rfl, ?_⟩
  intro w hw
  apply database_skip
  intro v hv hkey
  have hwritten : w.1 ∈ y.writes.map Prod.fst := List.mem_map_of_mem hw
  obtain ⟨z, hz, hzc⟩ := h.committed.mp (hus.subset (show v ∈ _ by simp [hv]))
  rw [writesOf_eq hz] at hkey
  -- v committed between the begin of u and its commit, so neither has seen the other
  have horder : (y.seen ++ vs ++ [u]).Nodup ∧
      (y.seen ++ vs ++ [u]).Pairwise (fun a b => ∀ x, s.txns a = some x → b ∉ x.seen) :=
    ⟨h.nodup.sublist hus.sublist, h.later.sublist hus.sublist⟩
  have hvu : u ∉ z.seen := (List.pairwise_append.mp horder.2).2.2 v (by simp [hv]) u (by simp) z hz
  have hvy : v ∉ y.seen := fun hin =>
    List.disjoint_of_nodup_append (List.nodup_append.mp horder.1).1 hin hv
  have hne : v ≠ u := fun heq =>
    (List.disjoint_of_nodup_append horder.1) (show v ∈ _ by simp [hv]) (by simp [heq])
  rcases lt_trichotomy z.state.version y.state.version with hlt | heq | hlt
  · exact hvy (h.older_writer_seen hz hy hzc hyc hkey hwritten hlt)
  · exact hne (h.handle_eq hz hy heq)
  · exact hvu (h.older_writer_seen hy hz hyc hzc hwritten hkey hlt)

section History
variable {inv : (Bytes → Slice) → Prop} {good : (Bytes → Slice) → List (Bytes × Slice) → Prop}
  {ok : (Bytes → Slice) → Bytes × Slice → Prop} {grows : (Bytes → Slice) → (Bytes → Slice) → Prop}

/-- Every part of the commit order makes a good database. -/
theorem Absorbs.history (hm : Absorbs inv good grows) (h : Inv s)
    (hgood : ∀ {t x}, s.txns t = some x → good (s.database x.seen) x.writes) {us : List Nat}
    (hus : us <+: s.commits) :
    ∀ vs, vs <+: us → inv (s.database vs) ∧ grows (s.database vs) (s.database us) := by
  induction us using List.reverseRecOn with
  | nil =>
    intro vs hvs
    rw [List.prefix_nil.mp hvs]
    exact ⟨hm.empty, hm.refl _⟩
  | append_singleton us u ih =>
    have ih := ih ((List.prefix_append us [u]).trans hus)
    obtain ⟨y, later, hy, hsplit, hsame⟩ := h.committed_after hus
    obtain ⟨hbase, hgrows⟩ := ih y.seen ⟨later, hsplit.symm⟩
    obtain ⟨hinv, hgrown⟩ := hm.merge hbase (ih us (List.prefix_refl us)).1 hgrows (hgood hy) hsame
    rw [database_snoc us hy]
    intro vs hvs
    rcases List.prefix_concat_iff.mp hvs with rfl | hvs
    · rw [database_snoc us hy]
      exact ⟨hinv, hm.refl _⟩
    · exact ⟨(ih vs hvs).1, hm.trans (ih vs hvs).2 hgrown⟩

theorem Absorbs.commits (hm : Absorbs inv good grows) (h : Inv s)
    (hgood : ∀ {t x}, s.txns t = some x → good (s.database x.seen) x.writes) :
    inv (s.database s.commits) :=
  (hm.history h hgood (List.prefix_refl _) _ (List.prefix_refl _)).1

variable (hm : Merges inv ok grows) (h : Inv s)
  (hok : ∀ {t x}, s.txns t = some x → ∀ w ∈ x.writes, ok (s.database x.seen) w)
include hm h hok

theorem Merges.commits : inv (s.database s.commits) := hm.absorbs.commits h hok

/-- What a transaction sees, its own writes included. -/
theorem Merges.view (hx : s.txns t = some x) :
    inv (applyWrites (s.database x.seen) x.writes) := by
  have hbase := (hm.absorbs.history h hok (h.seen hx) _ (List.prefix_refl _)).1
  exact (hm.merge hbase hbase (hm.refl _) (hok hx) (fun _ _ => rfl)).1

end History

end SpaceDB.Proofs
