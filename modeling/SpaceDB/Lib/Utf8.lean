import SpaceDB.Lib.Bytes

namespace Lib.Utf8

/-- What may follow the first byte of a character: how many bytes, and the
bounds of the first of them. The others lie between 0x80 and 0xBF. -/
structure Tail where
  count : Nat
  low : Nat
  high : Nat

def tailOf (b : Byte) : Option Tail :=
  if b.val < 0x80 then some ⟨0, 0x80, 0xBF⟩
  else if b.val < 0xC2 then none
  else if b.val < 0xE0 then some ⟨1, 0x80, 0xBF⟩
  else if b.val < 0xF0 then
    some ⟨2, if b.val = 0xE0 then 0xA0 else 0x80, if b.val = 0xED then 0x9F else 0xBF⟩
  else if b.val < 0xF5 then
    some ⟨3, if b.val = 0xF0 then 0x90 else 0x80, if b.val = 0xF4 then 0x8F else 0xBF⟩
  else none

def Tail.admits (t : Tail) : Bytes → Bool
  | [] => t.count = 0
  | b :: bs => decide (bs.length + 1 = t.count) && decide (t.low ≤ b.val ∧ b.val ≤ t.high) &&
    bs.all fun c => decide (0x80 ≤ c.val ∧ c.val ≤ 0xBF)

def width (b : Byte) (rest : Bytes) : Option Nat :=
  (tailOf b).bind fun t => if t.admits (rest.take t.count) then some (t.count + 1) else none

def replacement : Bytes := [0xEF, 0xBF, 0xBD]

/-- Well-formed bytes, after the rest of a character of which `skip` bytes are
still to come. -/
def validFrom : Nat → Bytes → Bool
  | _, [] => true
  | skip + 1, _ :: bs => validFrom skip bs
  | 0, b :: bs =>
    match width b bs with
    | some n => validFrom (n - 1) bs
    | none => false

def Valid (bs : Bytes) : Prop := validFrom 0 bs = true

instance (bs : Bytes) : Decidable (Valid bs) := inferInstanceAs (Decidable (_ = _))

/-- Every byte that belongs to no character is replaced by U+FFFD. -/
def toValidFrom : Nat → Bytes → Bytes
  | _, [] => []
  | skip + 1, b :: bs => b :: toValidFrom skip bs
  | 0, b :: bs =>
    match width b bs with
    | some n => b :: toValidFrom (n - 1) bs
    | none => replacement ++ toValidFrom 0 bs

def toValid (bs : Bytes) : Bytes := toValidFrom 0 bs

theorem Tail.length_of_admits {t : Tail} {bs : Bytes} (h : t.admits bs = true) :
    bs.length = t.count := by
  cases bs with
  | nil => simpa [Tail.admits] using (of_decide_eq_true h).symm
  | cons b bs =>
    simp only [Tail.admits, Bool.and_eq_true, decide_eq_true_eq] at h
    simpa using h.1.1

/-- The rest of a character is there, and nothing after it matters. -/
theorem width_some {b : Byte} {rest : Bytes} {n : Nat} (h : width b rest = some n) :
    n - 1 ≤ rest.length ∧ ∀ rest', rest'.take (n - 1) = rest.take (n - 1) →
    width b rest' = some n := by
  obtain ⟨t, ht, h⟩ := Option.bind_eq_some_iff.mp h
  split_ifs at h with hadmits
  cases h
  have hlength := Tail.length_of_admits hadmits
  rw [List.length_take] at hlength
  refine ⟨by omega, fun rest' hsame => ?_⟩
  rw [Nat.add_sub_cancel] at hsame
  unfold width
  rw [ht, Option.bind_some, hsame, if_pos hadmits]

/-- Valid text stays as it is. -/
theorem toValidFrom_of_valid {skip : Nat} {bs : Bytes} (h : validFrom skip bs = true) :
    toValidFrom skip bs = bs := by
  induction bs generalizing skip with
  | nil => cases skip <;> rfl
  | cons b bs ih =>
    cases skip with
    | succ skip => exact congrArg (b :: ·) (ih h)
    | zero =>
      simp only [validFrom, toValidFrom] at h ⊢
      cases hwidth : width b bs with
      | none => simp [hwidth] at h
      | some n =>
        simp only [hwidth] at h
        exact congrArg (b :: ·) (ih h)

theorem take_toValidFrom {skip : Nat} {bs : Bytes} (h : skip ≤ bs.length) :
    (toValidFrom skip bs).take skip = bs.take skip := by
  induction bs generalizing skip with
  | nil => cases skip <;> rfl
  | cons b bs ih =>
    cases skip with
    | zero => rfl
    | succ skip => exact congrArg (b :: ·) (ih (by simpa using h))

theorem validFrom_replacement (bs : Bytes) : validFrom 0 (replacement ++ bs) = validFrom 0 bs := rfl

/-- What comes out is valid. -/
theorem validFrom_toValidFrom {skip : Nat} {bs : Bytes} (h : skip ≤ bs.length) :
    validFrom skip (toValidFrom skip bs) = true := by
  induction bs generalizing skip with
  | nil => cases skip <;> rfl
  | cons b bs ih =>
    cases skip with
    | succ skip => exact ih (by simpa using h)
    | zero =>
      unfold toValidFrom
      cases hwidth : width b bs with
      | none => exact (validFrom_replacement _).trans (ih (Nat.zero_le _))
      | some n =>
        -- The copied character is read back as it was.
        obtain ⟨hlength, hsame⟩ := width_some hwidth
        simp only [validFrom, hsame _ (take_toValidFrom hlength)]
        exact ih hlength

theorem valid_toValid (bs : Bytes) : Valid (toValid bs) := validFrom_toValidFrom (Nat.zero_le _)

theorem toValid_eq_iff {bs : Bytes} : toValid bs = bs ↔ Valid bs :=
  ⟨fun h => h ▸ valid_toValid bs, toValidFrom_of_valid⟩

end Lib.Utf8
