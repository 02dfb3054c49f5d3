import Mathlib.Data.Nat.Bitwise
import SpaceDB.Engine.Kv
import SpaceDB.Lib.StableSort
import SpaceDB.Proofs.Ordinary

namespace SpaceDB.Proofs
open Lib Storage Sql Engine

def bytesCompare (a b : Bytes) : Int := threeWay a b

def IsNumber : Value → Prop
  | .float f => f.isNaN = false
  | _ => True

def OppositeZeros : Value → Value → Prop
  | .float f, .float g => f.magnitude = 0 ∧ g.magnitude = 0 ∧ f.negative ≠ g.negative
  | _, _ => False

/-- Flipping the highest bit moves the lower half of the numbers above the
upper one. -/
theorem flip_highest {n : Nat} (hn : n < 2 ^ 64) :
    n ^^^ 2 ^ 63 = if 2 ^ 63 ≤ n then n - 2 ^ 63 else n + 2 ^ 63 := by
  have hlow : ∀ m < 2 ^ 63, m ^^^ 2 ^ 63 = m + 2 ^ 63 := by
    intro m hm
    rw [Nat.add_comm]
    apply Nat.eq_of_testBit_eq
    intro i
    rw [Nat.testBit_xor, Nat.testBit_two_pow]
    rcases lt_trichotomy i 63 with hi | rfl | hi
    · rw [Nat.testBit_two_pow_add_gt hi, decide_eq_false (by omega), Bool.xor_false]
    · rw [Nat.testBit_two_pow_add_eq, decide_eq_true rfl, Bool.xor_true]
    · have hpow : 2 ^ 64 ≤ 2 ^ i := Nat.pow_le_pow_right (by decide) hi
      rw [Nat.testBit_lt_two_pow (by omega), Nat.testBit_lt_two_pow (by omega),
        decide_eq_false (by omega), Bool.xor_false]
  split_ifs with h
  · have hback := hlow (n - 2 ^ 63) (by omega)
    rw [Nat.sub_add_cancel h] at hback
    calc n ^^^ 2 ^ 63 = ((n - 2 ^ 63) ^^^ 2 ^ 63) ^^^ 2 ^ 63 := by rw [hback]
      _ = n - 2 ^ 63 := by rw [Nat.xor_assoc, Nat.xor_self, Nat.xor_zero]
  · exact hlow n (by omega)

theorem highest_set {n : Nat} (hn : n < 2 ^ 64) : n &&& 2 ^ 63 ≠ 0 ↔ 2 ^ 63 ≤ n := by
  rw [Nat.and_comm, Nat.two_pow_and]
  have hbit : n.testBit 63 = decide (2 ^ 63 ≤ n) := by
    rw [Nat.testBit_eq_decide_div_mod_eq]
    apply decide_eq_decide.mpr
    omega
  rw [hbit]
  by_cases h : 2 ^ 63 ≤ n
  · simp
  · simp

/-- The number whose bytes are the key of an integer. -/
theorem encode_integer (i : Sql.Int64) :
    encodePrimaryKey (.integer i) = 2 :: putUint 8 (i.val + 2 ^ 63).toNat := by
  have hi := i.property
  have hflip : (i.val % 2 ^ 64).toNat ^^^ 2 ^ 63 = (i.val + 2 ^ 63).toNat := by
    rw [flip_highest (by omega)]
    split_ifs <;> omega
  rw [encodePrimaryKey, hflip]

/-- The number whose bytes are the key of a float: negative floats are below
the others, and of them the larger magnitudes first. -/
def floatPlace (f : Float64) : Nat :=
  if f.negative then 2 ^ 63 - 1 - f.magnitude else 2 ^ 63 + f.magnitude

/-- The key of a float is the place of its bits. -/
theorem encode_float (f : Float64) :
    encodePrimaryKey (.float f) = 3 :: putUint 8 (floatPlace f) := by
  have hlt := f.bits.isLt
  have hplace :
      (if f.bits.val &&& 2 ^ 63 ≠ 0 then 2 ^ 64 - 1 - f.bits.val else f.bits.val ^^^ 2 ^ 63) =
      floatPlace f := by
    rw [flip_highest hlt]
    simp only [highest_set hlt, floatPlace, Float64.negative, Float64.magnitude, decide_eq_true_eq]
    split_ifs <;> omega
  rw [encodePrimaryKey]
  exact congrArg (fun n => 3 :: putUint 8 n) hplace

theorem floatPlace_lt (f : Float64) : floatPlace f < 256 ^ 8 := by
  have hm : f.magnitude < 2 ^ 63 := Nat.mod_lt _ (by decide)
  unfold floatPlace
  split_ifs <;> omega

/-- The sign decides, and within one sign the magnitude. -/
theorem floatPlace_lt_iff {f g : Float64}
    (hzero : ¬ (f.magnitude = 0 ∧ g.magnitude = 0 ∧ f.negative ≠ g.negative)) :
    floatPlace f < floatPlace g ↔ f.rank < g.rank := by
  have hf : f.magnitude < 2 ^ 63 := Nat.mod_lt _ (by decide)
  have hg : g.magnitude < 2 ^ 63 := Nat.mod_lt _ (by decide)
  unfold floatPlace Float64.rank
  cases hsf : f.negative with
  | false =>
    cases hsg : g.negative with
    | false => simp
    | true =>
      simp only [if_true, if_false, Bool.false_eq_true]
      omega
  | true =>
    cases hsg : g.negative with
    | false =>
      simp only [hsf, hsg, ne_eq, Bool.true_eq_false, not_false_eq_true, and_true] at hzero
      simp only [if_true, if_false, Bool.false_eq_true]
      omega
    | true =>
      simp only [if_true]
      omega

theorem bytesCompare_cons (c : Byte) (a b : Bytes) :
    bytesCompare (c :: a) (c :: b) = bytesCompare a b := by
  simp only [bytesCompare, threeWay, List.cons_lt_cons_iff, lt_irrefl, true_and, false_or]
  exact threeWay_eq

theorem bytesCompare_putUint {x y : Nat} (hx : x < 256 ^ 8) (hy : y < 256 ^ 8) :
    bytesCompare (putUint 8 x) (putUint 8 y) = threeWay x y := by
  simp only [bytesCompare, threeWay, putUint_lt hx hy, putUint_lt hy hx]

theorem bytesCompare_eq_zero {a b : Bytes} : bytesCompare a b = 0 ↔ a = b := threeWay_eq_zero

theorem compareFloats_eq {f g : Float64} (hf : f.isNaN = false) (hg : g.isNaN = false) :
    Value.compareFloats f g = threeWay f.rank g.rank := by
  simp only [Value.compareFloats, Float64.lt, hf, hg, Bool.not_false, Bool.true_and,
    decide_eq_true_eq, threeWay_eq]

/-- The keys of two values of one kind are ordered as the values are, and the
two zeros as their signs are. -/
theorem compare_keys {a b : Value} (hkind : a.kind = b.kind) (ha : IsNumber a) (hb : IsNumber b)
    (hzero : ¬ OppositeZeros a b) :
    a.compare b = .ok (bytesCompare (encodePrimaryKey a) (encodePrimaryKey b)) := by
  cases a with
  | null =>
    cases b with
    | null => rfl
    | _ => cases hkind
  | boolean x =>
    cases b with
    | boolean y => cases x <;> cases y <;> decide
    | _ => cases hkind
  | integer i =>
    cases b with
    | integer j =>
      have hi := i.property
      have hj := j.property
      rw [encode_integer, encode_integer, bytesCompare_cons,
        bytesCompare_putUint (by omega) (by omega), Value.compare, threeWay]
      congr 1
      split_ifs <;> omega
    | _ => cases hkind
  | float f =>
    cases b with
    | float g =>
      have hzero' : ¬ OppositeZeros (.float g) (.float f) :=
        fun h => hzero ⟨h.2.1, h.1, Ne.symm h.2.2⟩
      change f.isNaN = false at ha
      change g.isNaN = false at hb
      rw [encode_float, encode_float, bytesCompare_cons,
        bytesCompare_putUint (floatPlace_lt f) (floatPlace_lt g), Value.compare,
        compareFloats_eq ha hb]
      simp only [threeWay, floatPlace_lt_iff hzero, floatPlace_lt_iff hzero']
    | _ => cases hkind
  | string x =>
    cases b with
    | string y =>
      rw [encodePrimaryKey, encodePrimaryKey, bytesCompare_cons, Value.compare, threeWay_eq]
      rfl
    | _ => cases hkind

/-- Go's `==` on two values of one kind. -/
theorem equal_iff_compare {a b : Value} (hkind : a.kind = b.kind) (ha : IsNumber a)
    (hb : IsNumber b) :
    a.equal b = true ↔ a.compare b = .ok 0 := by
  cases a with
  | null =>
    cases b with
    | null => exact iff_of_true rfl rfl
    | _ => cases hkind
  | boolean x =>
    cases b with
    | boolean y => cases x <;> cases y <;> decide
    | _ => cases hkind
  | integer i =>
    cases b with
    | integer j =>
      simp only [Value.equal, Value.compare, decide_eq_true_eq, Except.ok.injEq, threeWay_eq,
        threeWay_eq_zero]
      exact Subtype.ext_iff
    | _ => cases hkind
  | float f =>
    cases b with
    | float g =>
      change f.isNaN = false at ha
      change g.isNaN = false at hb
      simp only [Value.equal, Value.compare, compareFloats_eq ha hb, Float64.eq, ha, hb,
        Bool.not_false, Bool.true_and, decide_eq_true_eq, Except.ok.injEq, threeWay_eq_zero]
    | _ => cases hkind
  | string x =>
    cases b with
    | string y =>
      simp only [Value.equal, Value.compare, decide_eq_true_eq, Except.ok.injEq, threeWay_eq,
        threeWay_eq_zero]
    | _ => cases hkind

/-- The two zeros are equal and have different keys. -/
theorem opposite_zeros_differ {a b : Value} (h : OppositeZeros a b) :
    a.compare b = .ok 0 ∧ encodePrimaryKey a ≠ encodePrimaryKey b := by
  cases a with
  | float f =>
    cases b with
    | float g =>
      obtain ⟨hf, hg, hsign⟩ := h
      constructor
      · simp [Value.compare, Value.compareFloats, Float64.lt, Float64.rank, hf, hg]
      · rw [encode_float, encode_float]
        intro heq
        have hplace := putUint_injective (floatPlace_lt f) (floatPlace_lt g) (List.cons.inj heq).2
        unfold floatPlace at hplace
        rw [hf, hg] at hplace
        cases hsf : f.negative <;> cases hsg : g.negative <;> simp [hsf, hsg] at hsign hplace
    | _ => exact h.elim
  | _ => exact h.elim

/-- Under one table only the primary key counts. -/
theorem rowKey_eq_iff {name : Bytes} (hname : name ≠ []) {a b : Value} :
    rowKey name a = rowKey name b ↔ encodePrimaryKey a = encodePrimaryKey b := by
  have hrow : ∀ v, rowKey name v =
      .ok (keyNamespaceRow :: name ++ [keySeparator] ++ encodePrimaryKey v) := by
    intro v
    unfold rowKey rowPrefixKey
    rw [if_neg hname]
    rfl
  rw [hrow, hrow, Except.ok.injEq]
  exact List.append_right_inj _

/-- The bytes of two primary keys of one kind compare as the values do, and Go's
`!=` tells them apart as their row keys are, exactly when the two are not the
float zeros of different sign. -/
theorem key_bytes_agree_iff {a b : Value} (hkind : a.kind = b.kind) (ha : IsNumber a)
    (hb : IsNumber b) {name : Bytes} (hname : name ≠ []) :
    (a.compare b = .ok (bytesCompare (encodePrimaryKey a) (encodePrimaryKey b)) ∧
      ((!a.equal b) = true ↔ rowKey name a ≠ rowKey name b)) ↔ ¬ OppositeZeros a b := by
  constructor
  · rintro ⟨hcompare, -⟩ hzero
    obtain ⟨hzero, hne⟩ := opposite_zeros_differ hzero
    rw [hzero] at hcompare
    exact hne (bytesCompare_eq_zero.mp (Except.ok.inj hcompare).symm)
  · intro hzero
    have hcompare := compare_keys hkind ha hb hzero
    refine ⟨hcompare, ?_⟩
    have hequal : a.equal b = true ↔ rowKey name a = rowKey name b := by
      rw [equal_iff_compare hkind ha hb, hcompare, Except.ok.injEq, bytesCompare_eq_zero,
        rowKey_eq_iff hname]
    rw [Bool.not_eq_true', ← Bool.not_eq_true]
    exact not_congr hequal

theorem key_bytes_agree_iff_negative :
    Value.compare (.float (.ofMagnitude true 1)) (.float (.ofMagnitude false 0)) = .ok (-1) ∧
      bytesCompare (encodePrimaryKey (.float (.ofMagnitude true 1)))
        (encodePrimaryKey (.float (.ofMagnitude false 0))) = -1 := by
  have hname : ascii "t" ≠ [] := by decide
  have hkeys := (key_bytes_agree_iff (a := .float (.ofMagnitude true 1))
    (b := .float (.ofMagnitude false 0)) rfl rfl rfl hname).mpr (fun h => absurd h.1 (by decide))
  have hcompare : Value.compare (.float (.ofMagnitude true 1)) (.float (.ofMagnitude false 0)) =
      .ok (-1) := by decide
  exact ⟨hcompare, Except.ok.inj (hkeys.1.symm.trans hcompare)⟩

/-- For Go's `==` the two zeros are one value, but each has a row key of its
own. -/
theorem zeros_with_two_keys :
    Value.compare (.float (.ofMagnitude false 0)) (.float (.ofMagnitude true 0)) = .ok 0 ∧
      bytesCompare (encodePrimaryKey (.float (.ofMagnitude false 0)))
        (encodePrimaryKey (.float (.ofMagnitude true 0))) = 1 ∧
      Value.equal (.float (.ofMagnitude false 0)) (.float (.ofMagnitude true 0)) = true ∧
      rowKey (ascii "t") (.float (.ofMagnitude false 0)) ≠
        rowKey (ascii "t") (.float (.ofMagnitude true 0)) := by
  decide

end SpaceDB.Proofs
