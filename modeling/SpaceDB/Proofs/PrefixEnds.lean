import Mathlib.Data.List.Induction
import SpaceDB.Proofs.KeyOrder
import SpaceDB.Storage.Memory

namespace SpaceDB.Proofs
open Lib Storage

/-- The end of a prefix by its last byte, from which the loop of the source
starts. -/
theorem prefixEnd_append (p : Bytes) (b : Byte) :
    prefixEnd (p ++ [b]) = if b = 255 then prefixEnd p else some (p ++ [b + 1]) := by
  induction p with
  | nil => simp [prefixEnd]
  | cons c p ih =>
    rw [List.cons_append, prefixEnd, ih]
    by_cases hb : b = 255
    · simp [hb, prefixEnd]
    · simp [hb]

/-- The loop at index `p.length` has left the bytes from there on behind. -/
theorem prefixEndLoop_eq (p rest : Bytes) :
    prefixEndLoop (p ++ rest) p.length = prefixEnd p := by
  induction p using List.reverseRecOn generalizing rest with
  | nil => rfl
  | append_singleton p b ih =>
    have hbyte : (p ++ [b] ++ rest)[p.length]? = some b := by simp
    rw [List.length_append, List.length_singleton, prefixEndLoop, hbyte, prefixEnd_append]
    dsimp only
    split_ifs with hb
    · rw [List.append_assoc]
      exact ih ([b] ++ rest)
    · simp [List.take_append, List.take_of_length_le]

/-- The loop over a whole prefix finds the exact bound: a key has the prefix if
and only if it is not before the prefix and before the bound, where there is
one. -/
theorem prefixEnd_exact (p k : Bytes) :
    p <+: k ↔ p ≤ k ∧ (prefixEndLoop p p.length = none ∨
      ∃ e, prefixEndLoop p p.length = some e ∧ k < e) := by
  have hloop := prefixEndLoop_eq p []
  rw [List.append_nil] at hloop
  rw [hloop, ← prefixEnd_bounds]
  cases prefixEnd p <;> simp

end SpaceDB.Proofs
