import Mathlib.Data.Nat.Log
import Mathlib.Tactic.Positivity
import Mathlib.Tactic.Ring
import SpaceDB.Lib.Bytes

namespace Lib

structure Float64 where
  bits : Fin (2 ^ 64)
  deriving DecidableEq

namespace Float64

def negative (x : Float64) : Bool := decide (2 ^ 63 ≤ x.bits.val)

/-- The exponent and fraction fields, read as one number. -/
def magnitude (x : Float64) : Nat := x.bits.val % 2 ^ 63

/-- The magnitude of the infinities; those above it are not numbers. -/
def infinite : Nat := 2047 * 2 ^ 52

def isNaN (x : Float64) : Bool := decide (infinite < x.magnitude)

def isInf (x : Float64) : Bool := decide (x.magnitude = infinite)

def finite (x : Float64) : Bool := decide (x.magnitude < infinite)

def ofMagnitude (negative : Bool) (m : Nat) : Float64 :=
  ⟨Fin.ofNat (2 ^ 64) (if negative then 2 ^ 63 + m else m)⟩

/-- The quiet NaN. Which sign bit an operation gives it depends on the machine. -/
def nan : Float64 := ofMagnitude false (infinite + 2 ^ 51)

/-- Numbers with one sign are ordered as their magnitudes; the two zeros are
equal. -/
def rank (x : Float64) : Int := if x.negative then -(x.magnitude : Int) else x.magnitude

def lt (x y : Float64) : Bool := !x.isNaN && !y.isNaN && decide (x.rank < y.rank)

def eq (x y : Float64) : Bool := !x.isNaN && !y.isNaN && decide (x.rank = y.rank)

def significand (x : Float64) : Nat :=
  if x.magnitude < 2 ^ 52 then x.magnitude else 2 ^ 52 + x.magnitude % 2 ^ 52

/-- How far the significand is shifted from the unit `2 ^ -1074`. -/
def shift (x : Float64) : Nat := x.magnitude / 2 ^ 52 - 1

def units (x : Float64) : Nat := x.significand * 2 ^ x.shift

def signedUnits (x : Float64) : Int := if x.negative then -(x.units : Int) else x.units

def roundQuotient (n d : Nat) : Nat :=
  let q := n / d
  let r := n % d
  if 2 * r < d then q else if d < 2 * r then q + 1 else if q % 2 = 0 then q else q + 1

/-- The magnitude of the number nearest to `n / d`, ties to the even one. What
is too large becomes infinite. The carry of a rounded significand goes into the
exponent field. -/
def nearest (n d : Nat) : Nat :=
  let k := Nat.log2 (n * 2 ^ 1074 / d) - 52
  min (k * 2 ^ 52 + roundQuotient (n * 2 ^ 1074) (d * 2 ^ k)) infinite

def ofInt (i : Int) : Float64 := ofMagnitude (decide (i < 0)) (nearest i.natAbs 1)

def add (x y : Float64) : Float64 :=
  if x.isNaN || y.isNaN then nan
  else if x.isInf then
    if y.isInf && x.negative != y.negative then nan else x
  else if y.isInf then y
  else
    let z := x.signedUnits + y.signedUnits
    if z = 0 then ofMagnitude (x.negative && y.negative) 0
    else ofMagnitude (decide (z < 0)) (nearest z.natAbs (2 ^ 1074))

def div (x y : Float64) : Float64 :=
  let negative := x.negative != y.negative
  if x.isNaN || y.isNaN then nan
  else if x.isInf then if y.isInf then nan else ofMagnitude negative infinite
  else if y.isInf then ofMagnitude negative 0
  else if y.units = 0 then if x.units = 0 then nan else ofMagnitude negative infinite
  else ofMagnitude negative (nearest x.units y.units)

theorem magnitude_ofMagnitude {m : Nat} (hm : m < 2 ^ 63) (negative : Bool) :
    (ofMagnitude negative m).magnitude = m := by
  unfold magnitude ofMagnitude
  cases negative <;> simp only [Fin.val_ofNat, if_true, if_false, Bool.false_eq_true] <;> omega

theorem negative_ofMagnitude {m : Nat} (hm : m < 2 ^ 63) (negative : Bool) :
    (ofMagnitude negative m).negative = negative := by
  unfold Float64.negative ofMagnitude
  cases negative <;> simp only [Fin.val_ofNat, if_true, if_false, Bool.false_eq_true,
    decide_eq_false_iff_not, decide_eq_true_eq] <;> omega

theorem ofMagnitude_magnitude (x : Float64) : ofMagnitude x.negative x.magnitude = x := by
  obtain ⟨bits⟩ := x
  have hlt := bits.isLt
  unfold ofMagnitude negative magnitude
  congr 1
  apply Fin.ext
  by_cases h : 2 ^ 63 ≤ bits.val <;> simp only [Fin.val_ofNat, h, decide_true, decide_false,
    if_true, if_false, Bool.false_eq_true] <;> omega

theorem significand_lt (x : Float64) : x.significand < 2 ^ 53 := by
  unfold significand
  split_ifs <;> omega

/-- The fields of a number from its significand and shift. -/
theorem shift_add_significand (x : Float64) : x.shift * 2 ^ 52 + x.significand = x.magnitude := by
  unfold shift significand
  split_ifs with h
  · rw [Nat.div_eq_of_lt h]
    omega
  · have hpos : 1 ≤ x.magnitude / 2 ^ 52 := (Nat.one_le_div_iff (by norm_num)).mpr (not_lt.mp h)
    have hdiv := Nat.div_add_mod x.magnitude (2 ^ 52)
    omega

/-- The shift is what the leading bit of the value asks for. -/
theorem shift_eq_log2 (x : Float64) : Nat.log2 x.units - 52 = x.shift := by
  unfold units
  by_cases h : x.magnitude < 2 ^ 52
  · have hs : x.shift = 0 := by
      unfold shift
      rw [Nat.div_eq_of_lt h]
    rw [hs, pow_zero, mul_one, significand, if_pos h]
    by_cases h0 : x.magnitude = 0
    · simp [h0]
    · have hlog := (Nat.log2_lt h0).mpr h
      omega
  · have hsig : 2 ^ 52 ≤ x.significand := by
      unfold significand
      rw [if_neg h]
      omega
    have hlt := x.significand_lt
    have hlog : Nat.log2 (x.significand * 2 ^ x.shift) = 52 + x.shift := by
      rw [Nat.log2_eq_iff (Nat.mul_ne_zero (by omega) (pow_ne_zero _ (by norm_num)))]
      rw [pow_add, show 52 + x.shift + 1 = 53 + x.shift by omega, pow_add 2 53]
      exact ⟨Nat.mul_le_mul_right _ hsig, Nat.mul_lt_mul_of_pos_right hlt (by positivity)⟩
    omega

theorem roundQuotient_mul {d : Nat} (hd : 0 < d) (q : Nat) : roundQuotient (q * d) d = q := by
  unfold roundQuotient
  simp [Nat.mul_div_cancel q hd, hd]

/-- A number rounds to itself, however its value is written as a quotient. -/
theorem nearest_units (x : Float64) (hx : x.magnitude ≤ infinite) {c : Nat} (hc : 0 < c) :
    nearest (x.units * c) (2 ^ 1074 * c) = x.magnitude := by
  have hquot : x.units * c * 2 ^ 1074 / (2 ^ 1074 * c) = x.units := by
    rw [mul_assoc, mul_comm c]
    exact Nat.mul_div_cancel _ (by positivity)
  unfold nearest
  simp only [hquot, shift_eq_log2]
  have hround : x.units * c * 2 ^ 1074 = x.significand * (2 ^ 1074 * c * 2 ^ x.shift) := by
    unfold units
    generalize 2 ^ 1074 = p
    ring
  rw [hround, roundQuotient_mul (by positivity), shift_add_significand, min_eq_left hx]

theorem roundQuotient_le (n d : Nat) : n / d ≤ roundQuotient n d ∧
    roundQuotient n d ≤ n / d + 1 := by
  unfold roundQuotient
  simp only
  split_ifs <;> omega

/-- Rounding keeps the order of numerators. -/
theorem roundQuotient_mono {m n : Nat} (h : m ≤ n) (d : Nat) :
    roundQuotient m d ≤ roundQuotient n d := by
  have hdiv : m / d ≤ n / d := Nat.div_le_div_right h
  rcases hdiv.lt_or_eq with hlt | heq
  · exact ((roundQuotient_le m d).2.trans hlt).trans (roundQuotient_le n d).1
  · have hm := Nat.div_add_mod m d
    have hn := Nat.div_add_mod n d
    rw [heq] at hm
    have hmod : m % d ≤ n % d := by omega
    unfold roundQuotient
    simp only [heq]
    split_ifs <;> omega

/-- A larger number rounds to no smaller one, also where the exponents of the
two differ. -/
theorem nearest_mono {m n : Nat} (h : m ≤ n) : nearest m 1 ≤ nearest n 1 := by
  have hscaled : m * 2 ^ 1074 ≤ n * 2 ^ 1074 := Nat.mul_le_mul_right _ h
  unfold nearest
  simp only [Nat.div_one, one_mul]
  generalize m * 2 ^ 1074 = a at hscaled ⊢
  generalize n * 2 ^ 1074 = b at hscaled ⊢
  apply min_le_min_right
  have hlog : Nat.log2 a ≤ Nat.log2 b := by
    rw [Nat.log2_eq_log_two, Nat.log2_eq_log_two]
    exact Nat.log_mono_right hscaled
  rcases (Nat.sub_le_sub_right hlog 52).lt_or_eq with hlt | heq
  · have hupper : roundQuotient a (2 ^ (Nat.log2 a - 52)) ≤ 2 ^ 53 := by
      apply (roundQuotient_le _ _).2.trans
      apply Nat.succ_le_of_lt
      apply Nat.div_lt_of_lt_mul
      rw [← pow_add]
      apply Nat.lt_log2_self.trans_le
      exact Nat.pow_le_pow_right (by decide) (by omega)
    have hlower : 2 ^ 52 ≤ roundQuotient b (2 ^ (Nat.log2 b - 52)) := by
      have hb : b ≠ 0 := by
        rintro rfl
        simp at hlt
      apply le_trans ?_ (roundQuotient_le _ _).1
      rw [Nat.le_div_iff_mul_le (by positivity), ← pow_add]
      exact (Nat.pow_le_pow_right (by decide) (by omega)).trans (Nat.log2_self_le hb)
    have hstep := Nat.mul_le_mul_right (2 ^ 52) hlt
    omega
  · rw [heq]
    exact Nat.add_le_add_left (roundQuotient_mono hscaled _) _

theorem nearest_lt (n d : Nat) : nearest n d < 2 ^ 63 :=
  (min_le_right _ _).trans_lt (by decide)

theorem isNaN_ofInt (i : Int) : (ofInt i).isNaN = false := by
  unfold isNaN ofInt
  rw [magnitude_ofMagnitude (nearest_lt _ _), decide_eq_false_iff_not, not_lt]
  exact min_le_right _ _

theorem rank_ofInt (i : Int) :
    (ofInt i).rank = if i < 0 then -(nearest i.natAbs 1 : Int) else nearest i.natAbs 1 := by
  unfold rank ofInt
  rw [magnitude_ofMagnitude (nearest_lt _ _), negative_ofMagnitude (nearest_lt _ _)]
  simp only [decide_eq_true_eq]

/-- Rounding to a float keeps the order of integers. -/
theorem ofInt_mono {i j : Int} (h : i ≤ j) : (ofInt i).rank ≤ (ofInt j).rank := by
  rw [rank_ofInt, rank_ofInt]
  split_ifs with hi hj hj
  · have := nearest_mono (show j.natAbs ≤ i.natAbs by omega)
    omega
  · omega
  · omega
  · have := nearest_mono (show i.natAbs ≤ j.natAbs by omega)
    omega

end Float64
end Lib
