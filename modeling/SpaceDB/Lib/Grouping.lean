import Mathlib.Data.List.Induction
import Mathlib.Data.List.Pairwise

namespace Lib

variable {κ α : Type}

def firstOccurrences (eq : κ → κ → Bool) : List κ → List κ
  | [] => []
  | k :: ks => k :: (firstOccurrences eq ks).filter (fun k' => !eq k k')

def withKey (eq : κ → κ → Bool) (key : α → κ) (k : κ) (l : List α) : List α :=
  l.filter (fun a => eq k (key a))

/-- An element goes to the group of its key, or begins one at the end. -/
def addTo (eq : κ → κ → Bool) (k : κ) (a : α) : List (κ × List α) → List (κ × List α)
  | [] => [(k, [a])]
  | (k', as) :: groups =>
    if eq k' k then (k', as ++ [a]) :: groups else (k', as) :: addTo eq k a groups

variable {eq : κ → κ → Bool} {P : κ → Prop} {key : α → κ}

theorem mem_of_firstOccurrences {k : κ} {ks : List κ}
    (h : k ∈ firstOccurrences eq ks) : k ∈ ks := by
  induction ks with
  | nil => exact h
  | cons k' ks ih =>
    rcases List.mem_cons.mp h with rfl | h
    · exact List.mem_cons_self
    · exact List.mem_cons_of_mem _ (ih (List.mem_filter.mp h).1)

/-- No two of the keys are equal. -/
theorem firstOccurrences_distinct (ks : List κ) :
    (firstOccurrences eq ks).Pairwise (fun a b => eq a b = false) := by
  induction ks with
  | nil => exact .nil
  | cons k ks ih =>
    refine List.pairwise_cons.mpr ⟨?_, ih.filter _⟩
    intro k' hk'
    simpa using (List.mem_filter.mp hk').2

/-- A further key is new unless an equal one has come before. -/
theorem firstOccurrences_append (ks : List κ) (k : κ) :
    firstOccurrences eq (ks ++ [k]) =
      if ks.any (fun k' => eq k' k) then firstOccurrences eq ks
      else firstOccurrences eq ks ++ [k] := by
  induction ks with
  | nil => rfl
  | cons k' ks ih =>
    rw [List.cons_append, firstOccurrences, ih, List.any_cons, firstOccurrences]
    cases hk : eq k' k with
    | true =>
      cases hks : ks.any (fun k' => eq k' k) with
      | true => simp
      | false => simp [hk]
    | false =>
      cases hks : ks.any (fun k' => eq k' k) with
      | true => simp
      | false => simp [hk]

@[simp]
theorem withKey_append (k : κ) (l : List α) (a : α) :
    withKey eq key k (l ++ [a]) = withKey eq key k l ++ if eq k (key a) then [a] else [] := by
  simp [withKey, List.filter_append, List.filter_cons]

/-- Among the keys with `P`, `eq` is an equivalence. -/
structure KeyEquivalence (P : κ → Prop) (eq : κ → κ → Bool) : Prop where
  refl : ∀ {a}, P a → eq a a = true
  symm : ∀ {a b}, eq a b = true → eq b a = true
  trans : ∀ {a b c}, eq a b = true → eq b c = true → eq a c = true

namespace KeyEquivalence
variable (h : KeyEquivalence P eq)
include h

/-- Every key of the list is equal to one of them. -/
theorem firstOccurrences_any {k : κ} {ks : List κ} (hk : ∃ k' ∈ ks, eq k' k = true) :
    ∃ k' ∈ firstOccurrences eq ks, eq k' k = true := by
  induction ks with
  | nil =>
    obtain ⟨k', hin, -⟩ := hk
    cases hin
  | cons a ks ih =>
    cases ha : eq a k with
    | true => exact ⟨a, List.mem_cons_self, ha⟩
    | false =>
      obtain ⟨k', hin, hk'⟩ := hk
      rcases List.mem_cons.mp hin with rfl | hin
      · rw [ha] at hk'
        cases hk'
      · obtain ⟨f, hf, hfk⟩ := ih ⟨k', hin, hk'⟩
        refine ⟨f, List.mem_cons_of_mem _ (List.mem_filter.mpr ⟨hf, ?_⟩), hfk⟩
        cases haf : eq a f with
        | true =>
          rw [h.trans haf hfk] at ha
          cases ha
        | false => rfl

/-- Every key equals exactly one first occurrence. -/
theorem firstOccurrences_unique {k : κ} {ks : List κ} (hP : P k) (hk : k ∈ ks) :
    ∃ f ∈ firstOccurrences eq ks, eq f k = true ∧
      ∀ f' ∈ firstOccurrences eq ks, eq f' k = true → f' = f := by
  obtain ⟨f, hf, hfk⟩ := h.firstOccurrences_any ⟨k, hk, h.refl hP⟩
  refine ⟨f, hf, hfk, fun f' hf' hfk' => ?_⟩
  by_contra hne
  have hsymm : Std.Symm (fun a b : κ => eq a b = false) := by
    refine ⟨fun a b hab => ?_⟩
    cases hba : eq b a with
    | true =>
      rw [h.symm hba] at hab
      cases hab
    | false => rfl
  have hdistinct := (firstOccurrences_distinct ks).forall hf' hf hne
  rw [h.trans hfk' (h.symm hfk)] at hdistinct
  cases hdistinct

/-- One element more: the groups are again those of the keys so far. -/
theorem addTo_groups {ks : List κ} (hks : ks.Pairwise (fun a b => eq a b = false)) (l : List α)
    (a : α) (hnew : (∀ k ∈ ks, eq k (key a) = false) → withKey eq key (key a) l = [])
    (ha : P (key a)) :
    addTo eq (key a) a (ks.map fun k => (k, withKey eq key k l)) =
      (if ks.any (fun k => eq k (key a)) then ks else ks ++ [key a]).map
        fun k => (k, withKey eq key k (l ++ [a])) := by
  induction ks with
  | nil => simp [addTo, withKey_append, hnew, h.refl ha]
  | cons k ks ih =>
    obtain ⟨hk, hks⟩ := List.pairwise_cons.mp hks
    rw [List.map_cons, addTo]
    cases hka : eq k (key a) with
    | true =>
      -- No further group has this key, so the others stay as they are.
      have hother : ∀ k' ∈ ks, eq k' (key a) = false := by
        intro k' hk'
        cases hk'a : eq k' (key a) with
        | true =>
          have := hk k' hk'
          rw [h.trans hka (h.symm hk'a)] at this
          cases this
        | false => rfl
      simp only [List.any_cons, hka, Bool.true_or, if_true, List.map_cons, withKey_append]
      congr 1
      apply List.map_congr_left
      intro k' hk'
      simp [hother k' hk']
    | false =>
      have hrest := ih hks (fun hno => hnew (by simpa [hka] using hno))
      simp only [Bool.false_eq_true, if_false, List.any_cons, hka, Bool.false_or, hrest]
      split <;> simp [withKey_append, hka]

/-- Grouping the elements one after another: a group per key, in the order
the keys come first, with the elements of that key in their order. -/
theorem foldl_addTo (l : List α) (hP : ∀ a ∈ l, P (key a)) :
    l.foldl (fun groups a => addTo eq (key a) a groups) [] =
      (firstOccurrences eq (l.map key)).map fun k => (k, withKey eq key k l) := by
  induction l using List.reverseRecOn with
  | nil => rfl
  | append_singleton l a ih =>
    have ha : P (key a) := hP a (by simp)
    rw [List.foldl_append, ih (fun b hb => hP b (by simp [hb])), List.foldl_cons, List.foldl_nil,
      h.addTo_groups (firstOccurrences_distinct _) l a ?_ ha, List.map_append, List.map_singleton,
      firstOccurrences_append]
    · have hany : (firstOccurrences eq (l.map key)).any (fun k => eq k (key a)) =
          (l.map key).any (fun k => eq k (key a)) := by
        rw [Bool.eq_iff_iff, List.any_eq_true, List.any_eq_true]
        exact ⟨fun ⟨k, hk, hka⟩ => ⟨k, mem_of_firstOccurrences hk, hka⟩, h.firstOccurrences_any⟩
      rw [hany]
    · intro hno
      refine List.filter_eq_nil_iff.mpr (fun b hb hab => ?_)
      obtain ⟨f, hf, hfa⟩ :=
        h.firstOccurrences_any ⟨key b, List.mem_map_of_mem hb, h.symm hab⟩
      rw [hno f hf] at hfa
      cases hfa

end KeyEquivalence
end Lib
