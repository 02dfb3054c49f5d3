import Mathlib.Data.List.Induction
import Mathlib.Data.List.Perm.Basic
import Mathlib.Order.Lattice

namespace Lib

def threeWay {κ : Type} [LinearOrder κ] (a b : κ) : Int :=
  if a < b then -1 else if b < a then 1 else 0

section ThreeWay
variable {κ : Type} [LinearOrder κ] {a b : κ}

/-- However the comparisons are decided. -/
theorem threeWay_eq {_ : Decidable (a < b)} {_ : Decidable (b < a)} :
    (if a < b then (-1 : Int) else if b < a then 1 else 0) = threeWay a b := by
  unfold threeWay
  congr

theorem threeWay_neg : threeWay a b < 0 ↔ a < b := by
  unfold threeWay
  split_ifs with hab hba
  · simp [hab]
  · simp [hab]
  · simp [hab]

theorem threeWay_swap (a b : κ) : threeWay b a = -threeWay a b := by
  unfold threeWay
  rcases lt_trichotomy a b with h | rfl | h
  · simp [h, not_lt.mpr (le_of_lt h)]
  · simp
  · simp [h, not_lt.mpr (le_of_lt h)]

theorem threeWay_pos : 0 < threeWay a b ↔ b < a := by
  have hswap := threeWay_swap a b
  rw [← threeWay_neg (a := b)]
  omega

theorem threeWay_nonpos : threeWay a b ≤ 0 ↔ a ≤ b := by
  have hswap := threeWay_swap a b
  rw [← not_lt (a := b), ← threeWay_neg]
  omega

theorem threeWay_eq_zero : threeWay a b = 0 ↔ a = b := by
  have hswap := threeWay_swap a b
  constructor
  · intro h
    apply le_antisymm
    · exact threeWay_nonpos.mp (le_of_eq h)
    · exact threeWay_nonpos.mp (by omega)
  · rintro rfl
    omega

end ThreeWay

variable {α : Type} {P : α → Prop} {cmp : α → α → Int}

/-- Among the elements with `P` a comparison is a total preorder; its sign says
which of two comes first. -/
structure WeakOrder (P : α → Prop) (cmp : α → α → Int) : Prop where
  swap : ∀ {a b}, P a → P b → (cmp a b < 0 ↔ 0 < cmp b a)
  trans : ∀ {a b c}, P a → P b → P c → cmp a b ≤ 0 → cmp b c ≤ 0 → cmp a c ≤ 0

/-- The elements of `source` in order, where equal ones stay in their order. -/
structure StableSorted (cmp : α → α → Int) (source result : List α) : Prop where
  perm : result.Perm source
  sorted : result.Pairwise (fun a b => cmp a b ≤ 0)
  stable : ∀ a ∈ source, result.filter (fun b => decide (cmp a b = 0)) =
    source.filter (fun b => decide (cmp a b = 0))

/-- `x` moves past the elements that it is less than; `sorted` is given from its
last element on. -/
def insertLast (cmp : α → α → Int) (x : α) : List α → List α
  | [] => [x]
  | last :: sorted =>
    if cmp x last < 0 then last :: insertLast cmp x sorted else x :: last :: sorted

def insertionSortBy (cmp : α → α → Int) (l : List α) : List α :=
  (l.foldl (fun sorted x => insertLast cmp x sorted) []).reverse

namespace WeakOrder
variable (h : WeakOrder P cmp) {a b c : α}
include h

theorem nonpos (ha : P a) (hb : P b) : cmp a b ≤ 0 ↔ 0 ≤ cmp b a := by
  have := h.swap hb ha
  omega

theorem zero (ha : P a) (hb : P b) : cmp a b = 0 ↔ cmp b a = 0 := by
  have := h.swap ha hb
  have := h.swap hb ha
  omega

theorem refl (ha : P a) : cmp a a = 0 := by
  have := h.swap ha ha
  omega

theorem negate : WeakOrder P (fun a b => -cmp a b) := by
  refine ⟨?_, ?_⟩
  · intro a b ha hb
    have := h.swap hb ha
    omega
  · intro a b c ha hb hc hab hbc
    have hba := (h.nonpos hb ha).mpr (by omega)
    have hcb := (h.nonpos hc hb).mpr (by omega)
    have := (h.nonpos hc ha).mp (h.trans hc hb ha hcb hba)
    omega

/-- A second comparison decides where the first one finds no difference. -/
theorem lex {cmp' : α → α → Int} (h' : WeakOrder P cmp') :
    WeakOrder P (fun a b => if cmp a b = 0 then cmp' a b else cmp a b) := by
  refine ⟨?_, ?_⟩
  · intro a b ha hb
    have hzero := h.zero ha hb
    have hswap := h.swap ha hb
    have hswap' := h'.swap ha hb
    split_ifs with hab hba hba
    · exact hswap'
    · exact absurd (hzero.mp hab) hba
    · exact absurd (hzero.mpr hba) hab
    · exact hswap
  · intro a b c ha hb hc hab hbc
    have hle : ∀ {x y}, (if cmp x y = 0 then cmp' x y else cmp x y) ≤ 0 → cmp x y ≤ 0 := by
      intro x y hxy
      split_ifs at hxy <;> omega
    have hac := h.trans ha hb hc (hle hab) (hle hbc)
    split_ifs with hzero
    · -- then the first comparison finds no difference to the one between
      have hcb := h.trans hc ha hb (le_of_eq ((h.zero ha hc).mp hzero)) (hle hab)
      have hba := h.trans hb hc ha (hle hbc) (le_of_eq ((h.zero ha hc).mp hzero))
      have hbc₀ : cmp b c = 0 := by
        have := (h.nonpos hc hb).mp hcb
        have := hle hbc
        omega
      have hab₀ : cmp a b = 0 := by
        have := (h.nonpos hb ha).mp hba
        have := hle hab
        omega
      rw [if_pos hab₀] at hab
      rw [if_pos hbc₀] at hbc
      exact h'.trans ha hb hc hab hbc
    · exact hac

end WeakOrder

/-- To compare by a key in a linear order is a weak order. -/
theorem weakOrder_threeWay {κ : Type} [LinearOrder κ] (P : α → Prop) (f : α → κ) :
    WeakOrder P (fun a b => threeWay (f a) (f b)) := by
  refine ⟨?_, ?_⟩
  · intro a b _ _
    have := threeWay_swap (f a) (f b)
    omega
  · intro a b c _ _ _ hab hbc
    exact threeWay_nonpos.mpr (le_trans (threeWay_nonpos.mp hab) (threeWay_nonpos.mp hbc))

/-- A comparison that agrees with a weak order is one. -/
theorem WeakOrder.congr {cmp' : α → α → Int} (h : WeakOrder P cmp)
    (heq : ∀ {a b}, P a → P b → cmp' a b = cmp a b) : WeakOrder P cmp' := by
  refine ⟨?_, ?_⟩
  · intro a b ha hb
    rw [heq ha hb, heq hb ha]
    exact h.swap ha hb
  · intro a b c ha hb hc hab hbc
    rw [heq ha hb] at hab
    rw [heq hb hc] at hbc
    rw [heq ha hc]
    exact h.trans ha hb hc hab hbc

theorem insertLast_perm (cmp : α → α → Int) (x : α) (l : List α) :
    (insertLast cmp x l).Perm (x :: l) := by
  induction l with
  | nil => exact .refl _
  | cons y l ih =>
    unfold insertLast
    split_ifs
    · exact (ih.cons y).trans (.swap x y l)
    · exact .refl _

/-- From right to left the elements descend. -/
theorem insertLast_sorted (h : WeakOrder P cmp) {x : α} {l : List α} (hx : P x) (hl : ∀ y ∈ l, P y)
    (hs : l.Pairwise (fun a b => cmp b a ≤ 0)) :
    (insertLast cmp x l).Pairwise (fun a b => cmp b a ≤ 0) := by
  induction l with
  | nil => exact List.pairwise_singleton _ _
  | cons y l ih =>
    obtain ⟨hy, hl⟩ := List.forall_mem_cons.mp hl
    obtain ⟨hfirst, hs⟩ := List.pairwise_cons.mp hs
    unfold insertLast
    split_ifs with hlt
    · refine List.pairwise_cons.mpr ⟨?_, ih hl hs⟩
      intro z hz
      rcases List.mem_cons.mp ((insertLast_perm cmp x l).mem_iff.mp hz) with rfl | hz
      · exact le_of_lt hlt
      · exact hfirst z hz
    · have hyx : cmp y x ≤ 0 := (h.nonpos hy hx).mpr (not_lt.mp hlt)
      refine List.pairwise_cons.mpr ⟨?_, List.pairwise_cons.mpr ⟨hfirst, hs⟩⟩
      intro z hz
      rcases List.mem_cons.mp hz with rfl | hz
      · exact hyx
      · exact h.trans (hl z hz) hy hx (hfirst z hz) hyx

/-- What `x` has moved past is not equal to it. -/
theorem insertLast_filter (h : WeakOrder P cmp) {a x : α} {l : List α} (ha : P a) (hx : P x)
    (hl : ∀ y ∈ l, P y) :
    (insertLast cmp x l).filter (fun b => decide (cmp a b = 0)) =
      (x :: l).filter (fun b => decide (cmp a b = 0)) := by
  induction l with
  | nil => rfl
  | cons y l ih =>
    obtain ⟨hy, hl⟩ := List.forall_mem_cons.mp hl
    unfold insertLast
    split_ifs with hlt
    · rw [List.filter_cons, ih hl]
      by_cases hax : cmp a x = 0
      · have hay : cmp a y ≠ 0 := by
          intro hay
          have hxa : cmp x a = 0 := (h.zero ha hx).mp hax
          have hya : cmp y a = 0 := (h.zero ha hy).mp hay
          have hyx := h.trans hy ha hx (le_of_eq hya) (le_of_eq hax)
          have := (h.swap hx hy).mp hlt
          omega
        simp [hax, hay]
      · simp [List.filter_cons, hax]
    · rfl

theorem insertionSortBy_append (cmp : α → α → Int) (l : List α) (x : α) :
    insertionSortBy cmp (l ++ [x]) =
    (insertLast cmp x (insertionSortBy cmp l).reverse).reverse := by
  unfold insertionSortBy
  rw [List.foldl_append, List.reverse_reverse]
  rfl

/-- Sorting loses nothing. -/
theorem insertionSortBy_perm (cmp : α → α → Int) (l : List α) : (insertionSortBy cmp l).Perm l := by
  induction l using List.reverseRecOn with
  | nil => exact .refl _
  | append_singleton l x ih =>
    rw [insertionSortBy_append]
    apply (List.reverse_perm _).trans
    apply (insertLast_perm cmp x _).trans
    apply (((List.reverse_perm _).trans ih).cons x).trans
    exact (List.perm_append_singleton x l).symm

/-- The insertion sort is a stable sort. -/
theorem insertionSortBy_stable (h : WeakOrder P cmp) {l : List α} (hl : ∀ x ∈ l, P x) :
    StableSorted cmp l (insertionSortBy cmp l) := by
  refine ⟨insertionSortBy_perm cmp l, ?_, ?_⟩
  · induction l using List.reverseRecOn with
    | nil => exact .nil
    | append_singleton l x ih =>
      obtain ⟨hl, hx⟩ := List.forall_mem_append.mp hl
      rw [insertionSortBy_append]
      apply List.pairwise_reverse.mpr
      apply insertLast_sorted h (hx x List.mem_cons_self)
      · intro y hy
        exact hl y ((insertionSortBy_perm cmp l).mem_iff.mp (List.mem_reverse.mp hy))
      · exact List.pairwise_reverse.mpr (ih hl)
  · intro a hin
    have ha : P a := hl a hin
    clear hin
    induction l using List.reverseRecOn with
    | nil => rfl
    | append_singleton l x ih =>
      obtain ⟨hl, hx⟩ := List.forall_mem_append.mp hl
      have hold : ∀ y ∈ (insertionSortBy cmp l).reverse, P y := fun y hy =>
        hl y ((insertionSortBy_perm cmp l).mem_iff.mp (List.mem_reverse.mp hy))
      rw [insertionSortBy_append, List.filter_reverse,
        insertLast_filter h ha (hx x List.mem_cons_self) hold, ← List.filter_reverse,
        List.reverse_cons, List.reverse_reverse, List.filter_append, List.filter_append, ih hl]

/-- There is one stable sort of a list. -/
theorem StableSorted.unique (h : WeakOrder P cmp) {source l m : List α}
    (hsource : ∀ x ∈ source, P x)
    (hl : StableSorted cmp source l) (hm : StableSorted cmp source m) : l = m := by
  have hperm := hl.perm.trans hm.perm.symm
  have hP : ∀ x ∈ l, P x := fun x hx => hsource x (hl.perm.mem_iff.mp hx)
  have hsame : ∀ a ∈ l, l.filter (fun b => decide (cmp a b = 0)) =
      m.filter (fun b => decide (cmp a b = 0)) := by
    intro a ha
    have ha := hl.perm.mem_iff.mp ha
    exact (hl.stable a ha).trans (hm.stable a ha).symm
  have hsorted := hl.sorted
  have hsorted' := hm.sorted
  clear hl hm hsource
  -- the two begin with equal elements, and the first of these is the same in both
  induction l generalizing m with
  | nil => exact hperm.nil_eq
  | cons x l ih =>
    cases m with
    | nil => exact absurd hperm.eq_nil (List.cons_ne_nil _ _)
    | cons y m =>
      obtain ⟨hx, hP⟩ := List.forall_mem_cons.mp hP
      obtain ⟨hfirst, hrest⟩ := List.pairwise_cons.mp hsorted
      obtain ⟨hfirst', hrest'⟩ := List.pairwise_cons.mp hsorted'
      have hxx := h.refl hx
      have hxy : cmp x y = 0 := by
        have hy : P y := by
          rcases List.mem_cons.mp (hperm.mem_iff.mpr List.mem_cons_self) with rfl | hin
          · exact hx
          · exact hP y hin
        have hle : cmp x y ≤ 0 := by
          rcases List.mem_cons.mp (hperm.mem_iff.mpr (List.mem_cons_self (a := y))) with rfl | hin
          · exact le_of_eq hxx
          · exact hfirst y hin
        have hge : cmp y x ≤ 0 := by
          rcases List.mem_cons.mp (hperm.mem_iff.mp (List.mem_cons_self (a := x))) with rfl | hin
          · exact le_of_eq hxx
          · exact hfirst' x hin
        have := (h.nonpos hy hx).mp hge
        omega
      have hheads := hsame x List.mem_cons_self
      simp only [List.filter_cons, hxx, hxy, decide_true, if_true, List.cons.injEq] at hheads
      obtain ⟨rfl, -⟩ := hheads
      rw [ih hperm.cons_inv hP ?_ hrest hrest']
      intro a ha
      have htails := hsame a (List.mem_cons_of_mem _ ha)
      simp only [List.filter_cons] at htails
      split_ifs at htails
      · exact (List.cons.inj htails).2
      · exact htails

end Lib
