import Mathlib.Data.Multiset.Bind

namespace Lib

abbrev Tuple (κ ν : Type) := κ → Option ν

namespace Tuple
variable {κ ν : Type}

/-- What the first of two maps does not have is taken from the second. -/
def merge (a b : Tuple κ ν) : Tuple κ ν := fun c => (a c).or (b c)

theorem merge_comm {a b : Tuple κ ν} (h : ∀ c, a c = none ∨ b c = none) :
    merge a b = merge b a := by
  funext c
  unfold merge
  rcases h c with hc | hc
  · rw [hc, Option.none_or, Option.or_none]
  · rw [hc, Option.none_or, Option.or_none]

variable [BEq κ] [LawfulBEq κ]

def ofRow (columns : List κ) (row : List ν) : Tuple κ ν :=
  fun c => (columns.idxOf? c).bind (fun i => row[i]?)

def filled (columns : List κ) (v : ν) : Tuple κ ν :=
  fun c => if columns.contains c then some v else none

theorem filled_congr {columns columns' : List κ} (h : ∀ c, c ∈ columns ↔ c ∈ columns') (v : ν) :
    filled columns v = filled columns' v := by
  funext c
  have hc : columns.contains c = columns'.contains c := by
    rw [Bool.eq_iff_iff, List.contains_iff_mem, List.contains_iff_mem, h]
  rw [filled, filled, hc]

theorem ofRow_eq_none {columns : List κ} {c : κ} (hc : c ∉ columns) (row : List ν) :
    ofRow columns row c = none := by
  unfold ofRow
  rw [List.idxOf?_eq_none_iff.mpr hc, Option.bind_none]

/-- Rows side by side make the merge of their maps. -/
theorem ofRow_append {columns columns' : List κ} {row row' : List ν}
    (h : row.length = columns.length) :
    ofRow (columns ++ columns') (row ++ row') =
    merge (ofRow columns row) (ofRow columns' row') := by
  induction columns generalizing row with
  | nil =>
    rw [List.length_nil, List.length_eq_zero_iff] at h
    subst h
    rfl
  | cons k columns ih =>
    obtain ⟨v, row, rfl⟩ := List.exists_cons_of_length_eq_add_one h
    have ih := ih (Nat.succ.inj h)
    funext c
    have ihc := congrFun ih c
    simp only [ofRow, merge] at ihc ⊢
    rw [List.cons_append, List.idxOf?_cons, List.idxOf?_cons]
    by_cases hk : k = c
    · simp [hk]
    · simp only [beq_iff_eq, hk, if_false, Option.bind_map, Function.comp_def, List.cons_append,
        List.getElem?_cons_succ]
      exact ihc

theorem ofRow_replicate (columns : List κ) (v : ν) :
    ofRow columns (List.replicate columns.length v) = filled columns v := by
  funext c
  unfold ofRow filled
  by_cases hc : c ∈ columns
  · obtain ⟨i, hi⟩ := Option.isSome_iff_exists.mp (List.isSome_idxOf?.mpr hc)
    have hlt : i < columns.length := (List.findIdx?_eq_some_iff_getElem.mp hi).1
    simp [hi, hc, hlt]
  · rw [List.idxOf?_eq_none_iff.mpr hc, if_neg (by simpa using hc), Option.bind_none]

end Tuple

namespace Relation
variable {α β γ α' β' γ' : Type}

def inner (holds : α → β → Bool) (pair : α → β → γ) (as : Multiset α)
    (bs : Multiset β) : Multiset γ :=
  ((as ×ˢ bs).filter (fun p => holds p.1 p.2 = true)).map (fun p => pair p.1 p.2)

def unmatched (holds : α → β → Bool) (as : Multiset α) (bs : Multiset β) : Multiset α :=
  as.filter (fun a => ∀ b ∈ bs, holds a b = false)

theorem product_map (f : α → α') (g : β → β') (as : Multiset α) (bs : Multiset β) :
    as.map f ×ˢ bs.map g = (as ×ˢ bs).map (Prod.map f g) := by
  induction as using Multiset.induction_on with
  | empty => simp
  | cons a as ih => simp [Multiset.cons_product, ih, Multiset.map_map]

theorem inner_map (holds : α' → β' → Bool) (pair : α' → β' → γ) (f : α → α') (g : β → β')
    (as : Multiset α) (bs : Multiset β) :
    inner holds pair (as.map f) (bs.map g) =
      inner (fun a b => holds (f a) (g b)) (fun a b => pair (f a) (g b)) as bs := by
  unfold inner
  rw [product_map, Multiset.filter_map, Multiset.map_map]
  rfl

theorem inner_congr {holds holds' : α → β → Bool} {pair pair' : α → β → γ} {as : Multiset α}
    {bs : Multiset β} (hholds : ∀ a ∈ as, ∀ b ∈ bs, holds a b = holds' a b)
    (hpair : ∀ a ∈ as, ∀ b ∈ bs, pair a b = pair' a b) :
    inner holds pair as bs = inner holds' pair' as bs := by
  unfold inner
  have hfilter : (as ×ˢ bs).filter (fun p => holds p.1 p.2 = true) =
      (as ×ˢ bs).filter (fun p => holds' p.1 p.2 = true) := by
    apply Multiset.filter_congr
    intro p hp
    obtain ⟨ha, hb⟩ := Multiset.mem_product.mp hp
    rw [hholds p.1 ha p.2 hb]
  rw [hfilter]
  apply Multiset.map_congr rfl
  intro p hp
  obtain ⟨ha, hb⟩ := Multiset.mem_product.mp (Multiset.mem_of_mem_filter hp)
  exact hpair p.1 ha p.2 hb

/-- It does not matter which side comes first. -/
theorem inner_swap (holds : α → β → Bool) (pair : α → β → γ) (as : Multiset α) (bs : Multiset β) :
    inner (fun b a => holds a b) (fun b a => pair a b) bs as = inner holds pair as bs := by
  unfold inner
  rw [← Multiset.map_swap_product bs as, Multiset.filter_map, Multiset.map_map]
  rfl

theorem unmatched_map (holds : α' → β' → Bool) (f : α → α') (g : β → β') (as : Multiset α)
    (bs : Multiset β) :
    unmatched holds (as.map f) (bs.map g) =
      (unmatched (fun a b => holds (f a) (g b)) as bs).map f := by
  unfold unmatched
  rw [Multiset.filter_map]
  congr 1
  apply Multiset.filter_congr
  intro a _
  simp

theorem unmatched_congr {holds holds' : α → β → Bool} {as : Multiset α} {bs : Multiset β}
    (h : ∀ a ∈ as, ∀ b ∈ bs, holds a b = holds' a b) :
    unmatched holds as bs = unmatched holds' as bs := by
  apply Multiset.filter_congr
  intro a ha
  refine forall₂_congr (fun b hb => ?_)
  rw [h a ha b hb]

variable (holds : α → β → Bool) (pair : α → β → γ) (pad : α → γ) (as : List α) (bs : List β)

/-- Two nested loops compute the inner join, in some order. -/
theorem inner_loop :
    ((as.flatMap fun a => (bs.filter (holds a)).map (pair a) : List γ) : Multiset γ) =
      inner holds pair as bs := by
  unfold inner
  rw [Multiset.coe_product, Multiset.filter_coe, Multiset.map_coe]
  congr 1
  induction as with
  | nil => rfl
  | cons a as ih =>
    rw [List.flatMap_cons, ih, List.product_cons, List.filter_append, List.map_append,
      List.filter_map, List.map_map]
    simp [Function.comp_def]

/-- The nested loops of an outer join: a row without match is kept by itself. -/
theorem outer_loop :
    ((as.flatMap fun a => if (bs.filter (holds a)).isEmpty then [pad a]
      else (bs.filter (holds a)).map (pair a) : List γ) : Multiset γ) =
      inner holds pair as bs + (unmatched holds as bs).map pad := by
  rw [← inner_loop]
  unfold unmatched
  induction as with
  | nil => rfl
  | cons a as ih =>
    have hnone : (bs.filter (holds a)).isEmpty ↔ ∀ b ∈ (bs : Multiset β), holds a b = false := by
      simp [List.isEmpty_iff]
    rw [List.flatMap_cons, List.flatMap_cons, ← Multiset.cons_coe, ← Multiset.coe_add,
      ← Multiset.coe_add, ih]
    by_cases hmatch : ∀ b ∈ (bs : Multiset β), holds a b = false
    · have hempty : bs.filter (holds a) = [] := List.isEmpty_iff.mp (hnone.mpr hmatch)
      rw [Multiset.filter_cons_of_pos _ hmatch, Multiset.map_cons, hempty, Multiset.add_cons]
      rfl
    · rw [Multiset.filter_cons_of_neg _ hmatch, if_neg (mt hnone.mp hmatch), add_assoc]

end Relation
end Lib
