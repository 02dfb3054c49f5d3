import Mathlib.Tactic.Linarith
import SpaceDB.Lib.Float64

namespace Lib.Float64

def Is (f : Float64) (i : Int) : Prop := f.finite = true ∧ f.signedUnits = i * 2 ^ 1074

def Representable (i : Int) : Prop := ∃ f : Float64, f.Is i

theorem roundQuotient_scale {c : Nat} (hc : 0 < c) (n d : Nat) :
    roundQuotient (n * c) (d * c) = roundQuotient n d := by
  have hless : ∀ {x y : Nat}, x * c < y * c ↔ x < y := fun {x y} => Nat.mul_lt_mul_right hc
  unfold roundQuotient
  simp only [Nat.mul_div_mul_right _ _ hc, Nat.mul_mod_mul_right, ← Nat.mul_assoc, hless]

/-- Rounding depends on the quotient alone. -/
theorem nearest_scale {c : Nat} (hc : 0 < c) (n d : Nat) :
    nearest (n * c) (d * c) = nearest n d := by
  have hn : n * c * 2 ^ 1074 = n * 2 ^ 1074 * c := Nat.mul_right_comm _ _ _
  have hd : ∀ k, d * c * 2 ^ k = d * 2 ^ k * c := fun k => Nat.mul_right_comm _ _ _
  unfold nearest
  simp only [hn, hd, Nat.mul_div_mul_right _ _ hc, roundQuotient_scale hc]

variable {f g : Float64} {i j : Int}

theorem natAbs_scaled (i : Int) (n : Nat) : (i * 2 ^ n).natAbs = i.natAbs * 2 ^ n := by
  rw [Int.natAbs_mul, Int.natAbs_pow, show Int.natAbs 2 = 2 from rfl]

theorem Is.units_eq (h : f.Is i) : f.units = i.natAbs * 2 ^ 1074 := by
  have hunits : f.signedUnits.natAbs = f.units := by
    unfold signedUnits
    split_ifs <;> simp
  rw [← hunits, h.2, natAbs_scaled]

theorem Is.negative_eq (h : f.Is i) (hi : i ≠ 0) : f.negative = decide (i < 0) := by
  have hvalue := h.2
  unfold signedUnits at hvalue
  have hpow : (0 : Int) < 2 ^ 1074 := by positivity
  generalize (2 : Int) ^ 1074 = p at hvalue hpow
  cases hneg : f.negative with
  | true =>
    rw [hneg, if_pos rfl] at hvalue
    symm
    rw [decide_eq_true_eq]
    by_contra hge
    have hpos : 0 < i := lt_of_le_of_ne (not_lt.mp hge) (Ne.symm hi)
    have := mul_pos hpos hpow
    omega
  | false =>
    rw [hneg, if_neg (by simp)] at hvalue
    symm
    rw [decide_eq_false_iff_not]
    intro hlt
    have := mul_neg_of_neg_of_pos hlt hpow
    omega

/-- An integer that is a float is the float nearest to it. -/
theorem Is.nearest_eq (h : f.Is i) : nearest i.natAbs 1 = f.magnitude := by
  have hfinite : f.magnitude ≤ infinite := by
    have := h.1
    simp only [finite, decide_eq_true_eq] at this
    exact le_of_lt this
  have hself := nearest_units f hfinite (c := 1) one_pos
  rw [Nat.mul_one, Nat.mul_one, h.units_eq] at hself
  rw [← hself, ← nearest_scale (c := 2 ^ 1074) (by positivity) i.natAbs 1, Nat.one_mul]

/-- The conversion of an integer that a float can be is that float. Only zero
has two. -/
theorem Is.eq_ofInt (h : f.Is i) (hi : i ≠ 0) : f = ofInt i := by
  rw [ofInt, h.nearest_eq, ← h.negative_eq hi, ofMagnitude_magnitude]

theorem ofInt_zero : ofInt 0 = ofMagnitude false 0 := by
  have hzero : nearest 0 1 = 0 := by
    unfold nearest
    simp only [Nat.zero_mul, Nat.zero_div, Nat.log2_zero, Nat.zero_sub, pow_zero]
    decide
  rw [ofInt, Int.natAbs_zero, hzero]
  rfl

theorem is_zero : (ofInt 0).Is 0 := by
  have hmagnitude : (ofMagnitude false 0).magnitude = 0 := magnitude_ofMagnitude (by decide) false
  have hunits : (ofMagnitude false 0).units = 0 := by
    rw [units, significand, hmagnitude, if_pos (by decide), Nat.zero_mul]
  rw [ofInt_zero]
  refine ⟨by decide, ?_⟩
  rw [signedUnits, hunits, Int.zero_mul]
  split_ifs <;> rfl

theorem Representable.is_ofInt (h : Representable i) : (ofInt i).Is i := by
  obtain ⟨f, hf⟩ := h
  by_cases hi : i = 0
  · rw [hi]
    exact is_zero
  · rw [← hf.eq_ofInt hi]
    exact hf

theorem Is.plain (h : f.Is i) : f.isNaN = false ∧ f.isInf = false := by
  have := h.1
  simp only [finite, isNaN, isInf, decide_eq_true_eq, decide_eq_false_iff_not] at this ⊢
  omega

/-- The sum of two integers is rounded once. -/
theorem add_ofInt (hi : Representable i) (hj : Representable j) :
    (ofInt i).add (ofInt j) = ofInt (i + j) := by
  have hf := hi.is_ofInt
  have hg := hj.is_ofInt
  have hz : (ofInt i).signedUnits + (ofInt j).signedUnits = (i + j) * 2 ^ 1074 := by
    rw [hf.2, hg.2, Int.add_mul]
  have hpow : (0 : Int) < 2 ^ 1074 := by positivity
  have hsign : ∀ k, (ofInt k).negative = decide (k < 0) := fun k =>
    negative_ofMagnitude (nearest_lt _ _) _
  unfold add
  simp only [hf.plain.1, hf.plain.2, hg.plain.1, hg.plain.2, Bool.or_false, Bool.false_eq_true,
    if_false, hz]
  by_cases hzero : i + j = 0
  · rw [if_pos (by rw [hzero, Int.zero_mul]), hzero, ofInt_zero, hsign, hsign]
    have hnot : (decide (i < 0) && decide (j < 0)) = false := by
      simp only [Bool.and_eq_false_iff, decide_eq_false_iff_not]
      omega
    rw [hnot]
  · have hne : (i + j) * 2 ^ 1074 ≠ 0 := mul_ne_zero hzero (ne_of_gt hpow)
    have hlt : (i + j) * 2 ^ 1074 < 0 ↔ i + j < 0 := by
      constructor
      · intro h
        by_contra hge
        exact absurd h (not_lt.mpr (mul_nonneg (not_lt.mp hge) (le_of_lt hpow)))
      · intro h
        exact mul_neg_of_neg_of_pos h hpow
    have hscale := nearest_scale (c := 2 ^ 1074) (by positivity) (i + j).natAbs 1
    rw [Nat.one_mul] at hscale
    rw [if_neg hne, natAbs_scaled, hscale, decide_eq_decide.mpr hlt, ofInt]

/-- A significand of 53 bits and a shift make a float. -/
theorem units_ofMagnitude {s k : Nat} (hlow : 2 ^ 52 ≤ s) (hhigh : s < 2 ^ 53) (hk : k < 2046)
    (negative : Bool) : (ofMagnitude negative (k * 2 ^ 52 + s)).finite = true ∧
      (ofMagnitude negative (k * 2 ^ 52 + s)).units = s * 2 ^ k := by
  have hm : k * 2 ^ 52 + s < infinite := by
    unfold infinite
    omega
  have hmagnitude := magnitude_ofMagnitude (lt_trans hm (by decide)) negative
  have hshift : (k * 2 ^ 52 + s) / 2 ^ 52 - 1 = k := by omega
  have hsignificand : 2 ^ 52 + (k * 2 ^ 52 + s) % 2 ^ 52 = s := by omega
  refine ⟨?_, ?_⟩
  · rw [finite, hmagnitude, decide_eq_true_eq]
    exact hm
  · rw [units, significand, shift, hmagnitude, if_neg (by omega), hshift, hsignificand]

/-- Up to `2 ^ 53` every integer has a significand of its own. -/
theorem representable_natAbs {n : Nat} (hpos : 0 < n) (hn : n ≤ 2 ^ 53) (negative : Bool) :
    ∃ m, (ofMagnitude negative m).finite = true ∧ m < 2 ^ 63 ∧
      (ofMagnitude negative m).units = n * 2 ^ 1074 := by
  have hlog : n.log2 ≤ 53 := by
    have hlt := (Nat.log2_lt (by omega)).mpr (lt_of_le_of_lt hn (by decide : 2 ^ 53 < 2 ^ 54))
    omega
  have hself := Nat.log2_self_le (show n ≠ 0 by omega)
  have hnext : n < 2 ^ (n.log2 + 1) := Nat.lt_log2_self
  -- the leading bit is moved to its place, down only from `2 ^ 53`
  by_cases h53 : n = 2 ^ 53
  · obtain ⟨hfinite, hunits⟩ := units_ofMagnitude (s := 2 ^ 52) (k := 1075) (by decide) (by decide)
      (by decide) negative
    refine ⟨_, hfinite, by decide, ?_⟩
    rw [hunits, h53, ← pow_add, ← pow_add]
  · have hlog' : n.log2 ≤ 52 := by
      have hlt := (Nat.log2_lt (show n ≠ 0 by omega)).mpr (lt_of_le_of_ne hn h53)
      omega
    have hlow : 2 ^ 52 ≤ n * 2 ^ (52 - n.log2) := by
      calc 2 ^ 52 = 2 ^ n.log2 * 2 ^ (52 - n.log2) := by
            rw [← pow_add, Nat.add_sub_cancel' hlog']
        _ ≤ n * 2 ^ (52 - n.log2) := Nat.mul_le_mul_right _ hself
    have hhigh : n * 2 ^ (52 - n.log2) < 2 ^ 53 := by
      calc n * 2 ^ (52 - n.log2) < 2 ^ (n.log2 + 1) * 2 ^ (52 - n.log2) :=
            Nat.mul_lt_mul_of_pos_right hnext (by positivity)
        _ = 2 ^ 53 := by
            rw [← pow_add]
            congr 1
            omega
    obtain ⟨hfinite, hunits⟩ :=
      units_ofMagnitude (k := 1022 + n.log2) hlow hhigh (by omega) negative
    refine ⟨_, hfinite, by omega, ?_⟩
    rw [hunits, Nat.mul_assoc, ← pow_add]
    congr 2
    omega

/-- Integers up to `2 ^ 53` are floats. -/
theorem representable_small (h : i.natAbs ≤ 2 ^ 53) : Representable i := by
  by_cases hi : i = 0
  · exact ⟨_, hi ▸ is_zero⟩
  · obtain ⟨m, hfinite, hm, hunits⟩ := representable_natAbs (by omega) h (decide (i < 0))
    refine ⟨_, hfinite, ?_⟩
    rw [signedUnits, hunits, negative_ofMagnitude hm, Nat.cast_mul, Nat.cast_pow]
    simp only [decide_eq_true_eq]
    split_ifs with hneg
    · rw [← Int.neg_mul]
      congr 1
      omega
    · congr 1
      omega

end Lib.Float64
