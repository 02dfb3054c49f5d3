import Mathlib.Data.List.Basic

namespace Lib
variable {α : Type} {whole part a b : List α} {i : Nat}

def SliceAt (whole : List α) (i : Nat) (part : List α) : Prop :=
  ∃ before after, whole = before ++ (part ++ after) ∧ before.length = i

theorem sliceAt_end (whole part : List α) : SliceAt (whole ++ part) whole.length part :=
  ⟨whole, [], by simp, rfl⟩

theorem sliceAt_take_drop {n : Nat} (h : i + n ≤ whole.length) :
    SliceAt whole i ((whole.drop i).take n) := by
  refine ⟨whole.take i, (whole.drop i).drop n, ?_, ?_⟩
  · rw [List.take_append_drop, List.take_append_drop]
  · rw [List.length_take]
    omega

namespace SliceAt

theorem drop_eq (h : SliceAt whole i part) :
    whole.drop i = part ++ whole.drop (i + part.length) := by
  obtain ⟨before, after, rfl, rfl⟩ := h
  rw [← List.drop_drop, List.drop_left, List.drop_left]

theorem take_drop (h : SliceAt whole i part) : (whole.drop i).take part.length = part := by
  obtain ⟨before, after, rfl, rfl⟩ := h
  rw [List.drop_left, List.take_left]

theorem le (h : SliceAt whole i part) : i + part.length ≤ whole.length := by
  obtain ⟨before, after, rfl, rfl⟩ := h
  simp

/-- Two parts next to each other. -/
theorem join (ha : SliceAt whole i a) (hb : SliceAt whole (i + a.length) b) :
    SliceAt whole i (a ++ b) := by
  refine ⟨whole.take i, whole.drop (i + a.length + b.length), ?_, ?_⟩
  · rw [List.append_assoc, ← hb.drop_eq, ← ha.drop_eq, List.take_append_drop]
  · rw [List.length_take]
    have := ha.le
    omega

theorem left (h : SliceAt whole i (a ++ b)) : SliceAt whole i a := by
  obtain ⟨before, after, rfl, rfl⟩ := h
  exact ⟨before, b ++ after, by simp, rfl⟩

theorem right (h : SliceAt whole i (a ++ b)) : SliceAt whole (i + a.length) b := by
  obtain ⟨before, after, rfl, rfl⟩ := h
  exact ⟨before ++ a, after, by simp, by simp⟩

/-- What is appended later does not move it. -/
theorem append (h : SliceAt whole i part) (more : List α) : SliceAt (whole ++ more) i part := by
  obtain ⟨before, after, rfl, rfl⟩ := h
  exact ⟨before, after ++ more, by simp, rfl⟩

end SliceAt

end Lib
