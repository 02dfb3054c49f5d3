import Mathlib.Data.Fin.Basic
import Mathlib.Data.List.Lex
import Mathlib.Order.Fin.Basic
import Mathlib.Tactic.Ring

namespace Lib

abbrev Byte := Fin 256

instance instNeZeroByte : NeZero 256 := ⟨by decide⟩

instance instNeZeroWord : NeZero (2 ^ 64) := ⟨by decide⟩

/-- Byte strings compare as unsigned bytes, a proper prefix first. -/
abbrev Bytes := List Byte

theorem cons_lt_cons {a b : Byte} {l m : Bytes} : a :: l < b :: m ↔ a < b ∨ a = b ∧ l < m :=
  List.cons_lt_cons_iff

theorem nil_le (l : Bytes) : [] ≤ l := by
  cases l with
  | nil => exact le_rfl
  | cons a l => exact le_of_lt (List.nil_lt_cons a l)

theorem append_lt_append_left {p l m : Bytes} : p ++ l < p ++ m ↔ l < m := by
  induction p with
  | nil => simp
  | cons a p ih => rw [List.cons_append, List.cons_append, cons_lt_cons]; simp [ih]

/-- Equal lengths decide the order before what follows is looked at. -/
theorem append_lt_append {a b c d : Bytes} (hl : a.length = b.length) :
    a ++ c < b ++ d ↔ a < b ∨ a = b ∧ c < d := by
  induction a generalizing b with
  | nil =>
    cases b with
    | nil => simp
    | cons y b => simp at hl
  | cons x a ih =>
    cases b with
    | nil => simp at hl
    | cons y b =>
      have hab := ih (b := b) (by simpa using hl)
      rw [List.cons_append, List.cons_append, cons_lt_cons, cons_lt_cons, hab]
      simp only [List.cons.injEq]
      tauto

/-- The big-endian encoding of `x` in `w` bytes; higher bytes are cut off. -/
def putUint : Nat → Nat → Bytes
  | 0, _ => []
  | w + 1, x => Fin.ofNat 256 (x / 256 ^ w) :: putUint w x

def uint : Bytes → Nat
  | [] => 0
  | b :: bs => b.val * 256 ^ bs.length + uint bs

@[simp] theorem putUint_length (w x : Nat) : (putUint w x).length = w := by
  induction w with
  | zero => rfl
  | succ w ih => simp [putUint, ih]

/-- A number of `n` bytes is below `256 ^ n`. -/
theorem uint_lt (bs : Bytes) : uint bs < 256 ^ bs.length := by
  induction bs with
  | nil => simp [uint]
  | cons b bs ih =>
    have hb : b.val + 1 ≤ 256 := b.isLt
    calc b.val * 256 ^ bs.length + uint bs
        < b.val * 256 ^ bs.length + 256 ^ bs.length := by omega
      _ = (b.val + 1) * 256 ^ bs.length := by ring
      _ ≤ 256 * 256 ^ bs.length := Nat.mul_le_mul_right _ hb
      _ = 256 ^ (b :: bs).length := by rw [List.length_cons, pow_succ]; ring

theorem uint_putUint (w x : Nat) : uint (putUint w x) = x % 256 ^ w := by
  induction w with
  | zero => simp [putUint, uint, Nat.mod_one]
  | succ w ih =>
    simp only [putUint, uint, putUint_length, ih, Fin.val_ofNat]
    rw [pow_succ, Nat.mod_mul, Nat.add_comm, Nat.mul_comm]

theorem uint_putUint_of_lt {w x : Nat} (hx : x < 256 ^ w) : uint (putUint w x) = x := by
  rw [uint_putUint, Nat.mod_eq_of_lt hx]

/-- Among byte strings of one length the byte order is the numeric order. -/
theorem lt_iff_uint_lt {a b : Bytes} (hl : a.length = b.length) : a < b ↔ uint a < uint b := by
  induction a generalizing b with
  | nil =>
    cases b with
    | nil => simp [uint]
    | cons y b => simp at hl
  | cons x a ih =>
    cases b with
    | nil => simp at hl
    | cons y b =>
      have hlen : a.length = b.length := by simpa using hl
      have ha := uint_lt a
      have hb := uint_lt b
      rw [cons_lt_cons, ih hlen]
      simp only [uint, hlen]
      rw [hlen] at ha
      generalize 256 ^ b.length = p at ha hb
      rcases lt_trichotomy x y with hxy | hxy | hxy
      · have hm : (x.val + 1) * p ≤ y.val * p := Nat.mul_le_mul_right _ hxy
        rw [Nat.add_mul] at hm
        exact ⟨fun _ => by omega, fun _ => Or.inl hxy⟩
      · subst hxy
        simp
      · have hm : (y.val + 1) * p ≤ x.val * p := Nat.mul_le_mul_right _ hxy
        rw [Nat.add_mul] at hm
        constructor
        · rintro (h | ⟨h, -⟩)
          · exact absurd h (not_lt.mpr (le_of_lt hxy))
          · exact absurd h (ne_of_gt hxy)
        · intro h
          omega

theorem uint_injective {a b : Bytes} (hl : a.length = b.length) (hu : uint a = uint b) : a = b := by
  rcases lt_trichotomy a b with h | h | h
  · have := (lt_iff_uint_lt hl).mp h
    omega
  · exact h
  · have := (lt_iff_uint_lt hl.symm).mp h
    omega

theorem putUint_uint (bs : Bytes) : putUint bs.length (uint bs) = bs := by
  apply uint_injective (by simp)
  exact uint_putUint_of_lt (uint_lt bs)

theorem putUint_lt {w x y : Nat} (hx : x < 256 ^ w) (hy : y < 256 ^ w) :
    putUint w x < putUint w y ↔ x < y := by
  rw [lt_iff_uint_lt (by simp), uint_putUint_of_lt hx, uint_putUint_of_lt hy]

theorem putUint_injective {w x y : Nat} (hx : x < 256 ^ w) (hy : y < 256 ^ w)
    (h : putUint w x = putUint w y) : x = y := by
  have hu := congrArg uint h
  rwa [uint_putUint_of_lt hx, uint_putUint_of_lt hy] at hu

end Lib
