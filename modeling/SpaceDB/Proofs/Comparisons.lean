import SpaceDB.Proofs.OrderBy

namespace SpaceDB.Proofs
open Lib Storage Sql

/-- The kinds that `Compare` accepts: NULL with anything, two values of one
kind, and two numbers. -/
def ComparableKinds : Value → Value → Prop
  | .null, _ | _, .null => True
  | .boolean _, .boolean _ | .string _, .string _ => True
  | .integer _, .integer _ | .integer _, .float _ => True
  | .float _, .integer _ | .float _, .float _ => True
  | _, _ => False

/-- A float between two integers that both become this float, the first of them
the larger one. -/
def RoundedTogether : Value → Value → Value → Prop
  | .integer i, .float f, .integer j =>
    j.val < i.val ∧ (Float64.ofInt i.val).eq f = true ∧ (Float64.ofInt j.val).eq f = true
  | _, _, _ => False

def mirrored : OperationKind → OperationKind
  | .operationEqual => .operationEqual
  | .operationGreaterThan => .operationLessThan
  | .operationLessThan => .operationGreaterThan

section Pairs
variable {a b : Value}

theorem compareFloats_swap (f g : Float64) :
    Value.compareFloats g f = -Value.compareFloats f g := by
  have hnot : f.lt g = true → g.lt f = false := by
    simp only [Float64.lt, Bool.and_eq_true, decide_eq_true_eq, Bool.and_eq_false_iff,
      decide_eq_false_iff_not]
    intro h
    exact .inr (not_lt.mpr (le_of_lt h.2))
  unfold Value.compareFloats
  cases hfg : f.lt g with
  | true => simp [hnot hfg]
  | false => cases g.lt f <;> simp

theorem compare_ok (h : ComparableKinds a b) : ∃ x, a.compare b = .ok x := by
  cases a <;> cases b <;> first | exact h.elim | exact ⟨_, rfl⟩

/-- To exchange the values changes the sign. -/
theorem compare_swap {x : Int} (h : a.compare b = .ok x) : b.compare a = .ok (-x) := by
  cases a with
  | null => cases b <;> cases h <;> rfl
  | boolean p => cases b with
    | null => cases h; rfl
    | boolean q => cases p <;> cases q <;> cases h <;> rfl
    | _ => cases h
  | integer i => cases b with
    | null => cases h; rfl
    | integer j =>
      simp only [Value.compare, threeWay_eq, Except.ok.injEq] at h ⊢
      rw [threeWay_swap, h]
    | float g =>
      simp only [Value.compare, Except.ok.injEq] at h ⊢
      rw [compareFloats_swap, h]
    | _ => cases h
  | float f => cases b with
    | null => cases h; rfl
    | integer j =>
      simp only [Value.compare, Except.ok.injEq] at h ⊢
      rw [compareFloats_swap, h]
    | float g =>
      simp only [Value.compare, Except.ok.injEq] at h ⊢
      rw [compareFloats_swap, h]
    | _ => cases h
  | string s => cases b with
    | null => cases h; rfl
    | string t =>
      simp only [Value.compare, threeWay_eq, Except.ok.injEq] at h ⊢
      rw [threeWay_swap, h]
    | _ => cases h

/-- A comparison of two values that are not NULL, by the sign of `Compare`. -/
theorem evaluateComparison_eq {x : Int} (ha : a ≠ .null) (hb : b ≠ .null)
    (h : a.compare b = .ok x) (kind : OperationKind) :
    evaluateComparison kind a b = .ok (.boolean (match kind with
      | .operationEqual => decide (x = 0)
      | .operationGreaterThan => decide (x > 0)
      | .operationLessThan => decide (x < 0))) := by
  unfold evaluateComparison
  rw [if_neg (not_or.mpr ⟨ha, hb⟩), h]
  cases kind <;> rfl

theorem evaluateComparison_swap {x : Int} (h : a.compare b = .ok x) (kind : OperationKind) :
    evaluateComparison kind b a = evaluateComparison (mirrored kind) a b := by
  by_cases hnull : a = .null ∨ b = .null
  · unfold evaluateComparison
    rw [if_pos hnull, if_pos hnull.symm]
  · obtain ⟨ha, hb⟩ := not_or.mp hnull
    rw [evaluateComparison_eq hb ha (compare_swap h), evaluateComparison_eq ha hb h]
    cases kind <;> simp [mirrored]

/-- Of the three operators exactly one is TRUE. -/
theorem evaluateComparison_unique {x : Int} (ha : a ≠ .null) (hb : b ≠ .null)
    (h : a.compare b = .ok x) : ∃! kind, evaluateComparison kind a b = .ok (.boolean true) := by
  simp only [evaluateComparison_eq ha hb h, Except.ok.injEq, Value.boolean.injEq]
  rcases lt_trichotomy x 0 with hx | hx | hx
  · refine ⟨.operationLessThan, decide_eq_true hx, ?_⟩
    intro kind hkind
    cases kind <;> simp at hkind ⊢ <;> omega
  · refine ⟨.operationEqual, decide_eq_true hx, ?_⟩
    intro kind hkind
    cases kind <;> simp at hkind ⊢ <;> omega
  · refine ⟨.operationGreaterThan, decide_eq_true hx, ?_⟩
    intro kind hkind
    cases kind <;> simp at hkind ⊢ <;> omega

end Pairs

def rounded : Value → Value
  | .integer i => .float (.ofInt i.val)
  | v => v

section Rounded
variable {a b c : Value} {x y z : Int}

/-- Values that can be compared have one kind after rounding. -/
theorem rounded_ofKind (ha : IsNumber a) (hb : IsNumber b) (h : ComparableKinds a b) :
    ∃ kind, OfKind kind (rounded a) ∧ OfKind kind (rounded b) := by
  have hint : ∀ i : Sql.Int64, IsNumber (rounded (.integer i)) := fun i => Float64.isNaN_ofInt i.val
  cases a with
  | null => cases b with
    | integer j => exact ⟨3, .inl rfl, .inr ⟨rfl, hint j⟩⟩
    | _ => exact ⟨_, .inl rfl, .inr ⟨rfl, hb⟩⟩
  | boolean p => cases b with
    | null => exact ⟨1, .inr ⟨rfl, ha⟩, .inl rfl⟩
    | boolean q => exact ⟨1, .inr ⟨rfl, ha⟩, .inr ⟨rfl, hb⟩⟩
    | _ => exact h.elim
  | integer i => cases b with
    | null => exact ⟨3, .inr ⟨rfl, hint i⟩, .inl rfl⟩
    | integer j => exact ⟨3, .inr ⟨rfl, hint i⟩, .inr ⟨rfl, hint j⟩⟩
    | float g => exact ⟨3, .inr ⟨rfl, hint i⟩, .inr ⟨rfl, hb⟩⟩
    | _ => exact h.elim
  | float f => cases b with
    | null => exact ⟨3, .inr ⟨rfl, ha⟩, .inl rfl⟩
    | integer j => exact ⟨3, .inr ⟨rfl, ha⟩, .inr ⟨rfl, hint j⟩⟩
    | float g => exact ⟨3, .inr ⟨rfl, ha⟩, .inr ⟨rfl, hb⟩⟩
    | _ => exact h.elim
  | string s => cases b with
    | null => exact ⟨4, .inr ⟨rfl, ha⟩, .inl rfl⟩
    | string t => exact ⟨4, .inr ⟨rfl, ha⟩, .inr ⟨rfl, hb⟩⟩
    | _ => exact h.elim

/-- Two values that are not both integers compare as they do when rounded. -/
theorem compare_rounded (hints : ¬ (a.kind = 2 ∧ b.kind = 2)) :
    a.compare b = .ok x ↔ (rounded a).compare (rounded b) = .ok x := by
  cases a <;> cases b <;> first | exact Iff.rfl | exact absurd ⟨rfl, rfl⟩ hints | skip
  all_goals simp [rounded, Value.compare, fault]

theorem nonpos_iff_place (ha : IsNumber a) (hb : IsNumber b) (hab : ComparableKinds a b)
    (hints : ¬ (a.kind = 2 ∧ b.kind = 2)) (h : a.compare b = .ok x) :
    x ≤ 0 ↔ valuePlace (rounded a) ≤ valuePlace (rounded b) := by
  obtain ⟨kind, hka, hkb⟩ := rounded_ofKind ha hb hab
  have hplace := (compare_rounded hints).mp h
  rw [compare_place hka hkb, Except.ok.injEq] at hplace
  rw [← hplace, threeWay_nonpos]

theorem place_integers (i j : Sql.Int64) :
    valuePlace (rounded (.integer i)) ≤ valuePlace (rounded (.integer j)) ↔
      (Float64.ofInt i.val).rank ≤ (Float64.ofInt j.val).rank := by
  rw [← threeWay_nonpos, rounded, rounded, valuePlace, valuePlace, threeWay_number, threeWay_nonpos]

/-- Rounding keeps the order of two integers, though it may make them equal. -/
theorem place_of_nonpos (ha : IsNumber a) (hb : IsNumber b) (hab : ComparableKinds a b)
    (h : a.compare b = .ok x) (hx : x ≤ 0) : valuePlace (rounded a) ≤ valuePlace (rounded b) := by
  by_cases hints : a.kind = 2 ∧ b.kind = 2
  · cases a with
    | integer i => cases b with
      | integer j =>
        simp only [Value.compare, threeWay_eq, Except.ok.injEq] at h
        rw [← h, threeWay_nonpos] at hx
        exact (place_integers i j).mpr (Float64.ofInt_mono hx)
      | _ => cases hints.2
    | _ => cases hints.1
  · exact (nonpos_iff_place ha hb hab hints h).mp hx

/-- Between two integers a float can stand that both become, and only then the
order does not carry over. -/
theorem integers_trans {i j : Sql.Int64} (hb : IsNumber b)
    (hib : (Value.integer i).compare b = .ok x)
    (hbj : b.compare (.integer j) = .ok y) (hx : x ≤ 0) (hy : y ≤ 0) :
    i.val ≤ j.val ∨ RoundedTogether (.integer i) b (.integer j) := by
  cases b with
  | integer k =>
    simp only [Value.compare, threeWay_eq, Except.ok.injEq] at hib hbj
    rw [← hib, threeWay_nonpos] at hx
    rw [← hbj, threeWay_nonpos] at hy
    exact .inl (hx.trans hy)
  | float f =>
    have hi := Float64.isNaN_ofInt i.val
    have hj := Float64.isNaN_ofInt j.val
    simp only [Value.compare, compareFloats_eq hi hb, Except.ok.injEq] at hib
    simp only [Value.compare, compareFloats_eq hb hj, Except.ok.injEq] at hbj
    rw [← hib, threeWay_nonpos] at hx
    rw [← hbj, threeWay_nonpos] at hy
    rcases le_or_gt i.val j.val with hle | hlt
    · exact .inl hle
    · -- rounding keeps the order of the two, so that both are the float
      have hmono := Float64.ofInt_mono (le_of_lt hlt)
      refine .inr ⟨hlt, ?_, ?_⟩
      · simp only [Float64.eq, hi, show f.isNaN = false from hb, Bool.not_false, Bool.true_and,
          decide_eq_true_eq]
        omega
      · simp only [Float64.eq, hj, show f.isNaN = false from hb, Bool.not_false, Bool.true_and,
          decide_eq_true_eq]
        omega
  | null =>
    cases hib
    cases hx
  | boolean p => cases hib
  | string s => cases hib

/-- Two integers are equal to one float, but not to each other. -/
theorem compare_of_roundedTogether (h : RoundedTogether a b c) :
    a.compare b = .ok 0 ∧ b.compare c = .ok 0 ∧ a.compare c = .ok 1 := by
  cases a with
  | integer i => cases b with
    | float f => cases c with
      | integer j =>
        obtain ⟨hlt, hi, hj⟩ := h
        simp only [Float64.eq, Bool.and_eq_true, Bool.not_eq_true', decide_eq_true_eq] at hi hj
        refine ⟨?_, ?_, ?_⟩
        · rw [Value.compare, compareFloats_eq hi.1.1 hi.1.2, threeWay_eq_zero.mpr hi.2]
        · rw [Value.compare, compareFloats_eq hj.1.2 hj.1.1, threeWay_eq_zero.mpr hj.2.symm]
        · rw [Value.compare, if_neg (by omega), if_pos hlt]
      | _ => exact h.elim
    | _ => exact h.elim
  | _ => exact h.elim

/-- The only triples on which the order is not transitive. -/
theorem compare_trans_iff (ha : IsNumber a) (hb : IsNumber b) (hc : IsNumber c)
    (hcab : ComparableKinds a b) (hcbc : ComparableKinds b c) (hcac : ComparableKinds a c)
    (hab : a.compare b = .ok x) (hbc : b.compare c = .ok y) (hac : a.compare c = .ok z) :
    (x ≤ 0 → y ≤ 0 → z ≤ 0) ↔ ¬ RoundedTogether a b c := by
  constructor
  · intro h htogether
    obtain ⟨hx, hy, hz⟩ := compare_of_roundedTogether htogether
    rw [hab, Except.ok.injEq] at hx
    rw [hbc, Except.ok.injEq] at hy
    rw [hac, Except.ok.injEq] at hz
    have := h (by omega) (by omega)
    omega
  · intro hnot hx hy
    by_cases hints : a.kind = 2 ∧ c.kind = 2
    · cases a with
      | integer i => cases c with
        | integer j =>
          have hle := (integers_trans hb hab hbc hx hy).resolve_right hnot
          simp only [Value.compare, threeWay_eq, Except.ok.injEq] at hac
          rwa [← hac, threeWay_nonpos]
        | _ => cases hints.2
      | _ => cases hints.1
    · rw [nonpos_iff_place ha hc hcac hints hac]
      exact (place_of_nonpos ha hb hcab hab hx).trans (place_of_nonpos hb hc hcbc hbc hy)

end Rounded

/-- `Compare` is antisymmetric, so that the operators agree on the two orders of
their operands and exactly one of them holds. It is transitive except over a
float that two integers become. -/
theorem compare_preorder_iff {a b c : Value} (ha : IsNumber a) (hb : IsNumber b) (hc : IsNumber c)
    (hab : ComparableKinds a b) (hbc : ComparableKinds b c) (hac : ComparableKinds a c) :
    ∃ x y z, a.compare b = .ok x ∧ b.compare c = .ok y ∧ a.compare c = .ok z ∧
      b.compare a = .ok (-x) ∧ ((x ≤ 0 → y ≤ 0 → z ≤ 0) ↔ ¬ RoundedTogether a b c) ∧
      (∀ kind, evaluateComparison kind b a = evaluateComparison (mirrored kind) a b) ∧
      (a ≠ .null → b ≠ .null → ∃! kind, evaluateComparison kind a b = .ok (.boolean true)) := by
  obtain ⟨x, hx⟩ := compare_ok hab
  obtain ⟨y, hy⟩ := compare_ok hbc
  obtain ⟨z, hz⟩ := compare_ok hac
  refine ⟨x, y, z, hx, hy, hz, compare_swap hx, ?_, evaluateComparison_swap hx, ?_⟩
  · exact compare_trans_iff ha hb hc hab hbc hac hx hy hz
  · intro hna hnb
    exact evaluateComparison_unique hna hnb hx

theorem compare_preorder_iff_mixed :
    ∃ z, Value.compare (.integer ⟨1, by decide⟩) (.float (.ofInt 3)) = .ok z ∧ z ≤ 0 := by
  obtain ⟨x, y, z, hx, hy, hz, -, htrans, -⟩ := compare_preorder_iff (a := .integer ⟨1, by decide⟩)
    (b := .float (.ofInt 2)) (c := .float (.ofInt 3)) trivial (Float64.isNaN_ofInt 2)
    (Float64.isNaN_ofInt 3) trivial trivial trivial
  have hx' : x = -1 := Except.ok.inj (hx.symm.trans (by decide +kernel))
  have hy' : y = -1 := Except.ok.inj (hy.symm.trans (by decide +kernel))
  exact ⟨z, hz, htrans.mpr id (by omega) (by omega)⟩

/-- The integers `2 ^ 53` and `2 ^ 53 + 1` both equal the float `2 ^ 53`, but
not each other. -/
theorem compare_not_transitive :
    Value.compare (.integer ⟨2 ^ 53 + 1, by decide⟩) (.float (.ofInt (2 ^ 53))) = .ok 0 ∧
      Value.compare (.float (.ofInt (2 ^ 53))) (.integer ⟨2 ^ 53, by decide⟩) = .ok 0 ∧
      Value.compare (.integer ⟨2 ^ 53 + 1, by decide⟩) (.integer ⟨2 ^ 53, by decide⟩) = .ok 1 := by
  decide +kernel

end SpaceDB.Proofs
