import Mathlib.Data.Prod.Lex
import Mathlib.Order.Compare
import SpaceDB.Proofs.KeyCodec

namespace SpaceDB.Proofs
open Lib Storage

theorem cons_le_cons {a b : Byte} {l m : Bytes} : a :: l ≤ b :: m ↔ a < b ∨ a = b ∧ l ≤ m := by
  rw [← not_lt, cons_lt_cons, ← not_lt]
  rcases lt_trichotomy a b with h | h | h
  · simp [h, ne_of_gt h, not_lt.mpr (le_of_lt h)]
  · simp [h]
  · simp [h, ne_of_gt h, not_lt.mpr (le_of_lt h)]

/-- Between a prefix and its end lie exactly the keys with that prefix. -/
theorem prefixEnd_bounds (p k : Bytes) :
    (p ≤ k ∧ ∀ e, prefixEnd p = some e → k < e) ↔ p <+: k := by
  induction p generalizing k with
  | nil => simp [prefixEnd, nil_le]
  | cons b p ih =>
    cases k with
    | nil =>
      have hlt : ([] : Bytes) < b :: p := List.nil_lt_cons b p
      simp [not_le.mpr hlt]
    | cons c k =>
      rw [cons_le_cons, List.cons_prefix_cons]
      have hk := ih k
      cases he : prefixEnd p with
      | some e =>
        simp only [he, Option.some.injEq, forall_eq'] at hk
        simp only [prefixEnd, he, Option.some.injEq, forall_eq', cons_lt_cons]
        constructor
        · rintro ⟨hb | ⟨rfl, hp⟩, hc | ⟨hc, hlt⟩⟩
          · exact absurd hb (not_lt.mpr (le_of_lt hc))
          · exact absurd hb (hc ▸ lt_irrefl _)
          · exact absurd hc (lt_irrefl _)
          · exact ⟨rfl, hk.mp ⟨hp, hlt⟩⟩
        · rintro ⟨rfl, hp⟩
          obtain ⟨hle, hlt⟩ := hk.mpr hp
          exact ⟨Or.inr ⟨rfl, hle⟩, Or.inr ⟨rfl, hlt⟩⟩
      | none =>
        have hp : p ≤ k ↔ p <+: k := by simpa [he] using hk
        -- the tail has no end: the bound comes from this byte, or there is none
        by_cases hb : b = 255
        · simp only [prefixEnd, he, hb, if_true, reduceCtorEq, false_implies, implies_true,
            and_true, hp]
          constructor
          · rintro (h | h)
            · exact absurd h (not_lt.mpr (Fin.le_last c))
            · exact h
          · exact Or.inr
        · simp only [prefixEnd, he, hb, if_false, Option.some.injEq, forall_eq', cons_lt_cons,
            List.not_lt_nil, and_false, or_false, hp]
          have hsucc : c < b + 1 ↔ c ≤ b := by
            have hlast : b < Fin.last 255 := lt_of_le_of_ne (Fin.le_last b) hb
            exact Fin.lt_add_one_iff.mpr hlast |> fun h => ⟨fun hc => by
              have := Fin.val_add_one_of_lt hlast
              simp only [Fin.lt_def, Fin.le_def] at hc ⊢
              omega, fun hc => lt_of_le_of_lt hc h⟩
          rw [hsucc]
          constructor
          · rintro ⟨h | h, hc⟩
            · exact absurd h (not_lt.mpr hc)
            · exact h
          · rintro ⟨rfl, h⟩
            exact ⟨Or.inr ⟨rfl, h⟩, le_rfl⟩

theorem inRange_prefixEnd {p k : Bytes} :
    OrderedMap.inRange (some p) (prefixEnd p) k = true ↔ p <+: k := by
  rw [← prefixEnd_bounds]
  cases prefixEnd p <;> simp [OrderedMap.inRange]

/-- Escaping keeps the order: raw keys first, whatever follows them second. -/
theorem escape_lt (k₁ k₂ t₁ t₂ : Bytes) :
    escape k₁ ++ 0 :: 0 :: t₁ < escape k₂ ++ 0 :: 0 :: t₂ ↔ k₁ < k₂ ∨ k₁ = k₂ ∧ t₁ < t₂ := by
  induction k₁ generalizing k₂ with
  | nil =>
    cases k₂ with
    | nil => simp [escape]
    | cons b k₂ =>
      refine iff_of_true ?_ (Or.inl (List.nil_lt_cons b k₂))
      by_cases hb : b = 0
      · simp only [escape, hb, if_true, List.nil_append, List.cons_append]
        exact cons_lt_cons.mpr (Or.inr ⟨rfl, cons_lt_cons.mpr (Or.inl (by decide))⟩)
      · simp only [escape, hb, if_false, List.nil_append, List.cons_append]
        exact cons_lt_cons.mpr (Or.inl (Fin.pos_iff_ne_zero.mpr hb))
  | cons a k₁ ih =>
    cases k₂ with
    | nil =>
      refine iff_of_false ?_ (by simp)
      by_cases ha : a = 0
      · simp [escape, ha, cons_lt_cons]
      · simp [escape, ha, cons_lt_cons]
    | cons b k₂ =>
      have hk := ih k₂
      by_cases ha : a = 0 <;> by_cases hb : b = 0
      · simp only [escape, ha, hb, if_true, List.cons_append, cons_lt_cons, lt_irrefl, hk]
        simp
      · have hpos : (0 : Byte) < b := Fin.pos_iff_ne_zero.mpr hb
        simp [escape, ha, hb, cons_lt_cons, hpos]
      · simp [escape, ha, hb, cons_lt_cons]
      · simp only [escape, ha, hb, if_false, List.cons_append, cons_lt_cons, hk, List.cons.injEq]
        tauto

/-- Escaping keeps prefixes, though the key is terminated. -/
theorem escape_startsWith (p k t : Bytes) : escape p <+: escape k ++ 0 :: 0 :: t ↔ p <+: k := by
  induction p generalizing k with
  | nil => simp [escape]
  | cons a p ih =>
    cases k with
    | nil =>
      by_cases ha : a = 0
      · simp [escape, ha, List.cons_prefix_cons]
      · simp [escape, ha, List.cons_prefix_cons]
    | cons b k =>
      have hk := ih k
      by_cases ha : a = 0 <;> by_cases hb : b = 0
      · simp [escape, ha, hb, List.cons_prefix_cons, hk]
      · simp [escape, ha, hb, List.cons_prefix_cons, Ne.symm hb]
      · simp [escape, ha, hb, List.cons_prefix_cons]
      · simp [escape, ha, hb, List.cons_prefix_cons, hk]

theorem encode_version (k : Bytes) (v : Version) :
    (MvccKey.version k v).encode =
      mvccKeyKindPrefix .version ++ (escape k ++ 0 :: 0 :: putUint 8 v.val) :=
  encode_eq (.version k v)

/-- Version records follow the records of every other kind. -/
theorem version_of_le {t : Bytes} {key : MvccKey}
    (hle : mvccKeyKindPrefix .version ++ t ≤ key.encode) : ∃ k v, key = .version k v := by
  by_contra hne
  have hlt : (kind key).byte < MvccKeyKind.version.byte := by
    cases key with
    | nextVersion => decide
    | txnActive v => exact (by decide : MvccKeyKind.txnActive.byte < MvccKeyKind.version.byte)
    | txnWrite v k => exact (by decide : MvccKeyKind.txnWrite.byte < MvccKeyKind.version.byte)
    | version k v => exact absurd ⟨k, v, rfl⟩ hne
  have hbad : key.encode < mvccKeyKindPrefix .version ++ t := by
    rw [encode_eq, mvccKeyKindPrefix, mvccKeyKindPrefix, List.append_assoc, List.append_assoc,
      append_lt_append_left]
    exact cons_lt_cons.mpr (Or.inl hlt)
  exact absurd hle (not_le.mpr hbad)

theorem version_lt_iff {k k' t : Bytes} {v : Version} :
    (MvccKey.version k v).encode < mvccKeyKindPrefix .version ++ (escape k' ++ 0 :: 0 :: t) ↔
      k < k' ∨ k = k' ∧ putUint 8 v.val < t := by
  rw [encode_version, append_lt_append_left, escape_lt]

theorem version_encode_lt {k k' : Bytes} {v v' : Version} :
    (MvccKey.version k v).encode < (MvccKey.version k' v').encode ↔ k < k' ∨ k = k' ∧ v < v' := by
  rw [encode_version k' v', version_lt_iff, putUint_lt (version_lt v) (version_lt v')]
  rfl

theorem version_encode_le {k k' : Bytes} {v v' : Version} :
    (MvccKey.version k v).encode ≤ (MvccKey.version k' v').encode ↔ k < k' ∨ k = k' ∧ v ≤ v' := by
  rw [← not_lt, version_encode_lt, ← not_lt]
  rcases lt_trichotomy k k' with h | h | h
  · simp [h, ne_of_gt h, not_lt.mpr (le_of_lt h)]
  · simp [h]
  · simp [h, ne_of_gt h, not_lt.mpr (le_of_lt h)]

/-- The range Get scans holds the versions of its key from `a` up to `b`. -/
theorem version_range {k : Bytes} {a b : Version} {key : MvccKey} :
    ((MvccKey.version k a).encode ≤ key.encode ∧ key.encode < (MvccKey.version k b).encode) ↔
      ∃ v, key = .version k v ∧ a ≤ v ∧ v < b := by
  constructor
  · rintro ⟨hle, hlt⟩
    obtain ⟨k', v, rfl⟩ := version_of_le (by simpa [encode_version] using hle)
    rw [version_encode_le] at hle
    rw [version_encode_lt] at hlt
    rcases hle with h | ⟨rfl, hav⟩ <;> rcases hlt with h' | ⟨h', hvb⟩
    · exact absurd h (not_lt.mpr (le_of_lt h'))
    · exact absurd h (h' ▸ lt_irrefl _)
    · exact absurd h' (lt_irrefl _)
    · exact ⟨v, rfl, hav, hvb⟩
  · rintro ⟨v, rfl, hav, hvb⟩
    exact ⟨version_encode_le.mpr (Or.inr ⟨rfl, hav⟩), version_encode_lt.mpr (Or.inr ⟨rfl, hvb⟩)⟩

theorem le_maxVersion (v : Version) : v ≤ maxVersion := Nat.le_sub_one_of_lt v.isLt

/-- The range write scans holds every version of its key from `a` on. -/
theorem version_range_last {k : Bytes} {a : Version} {key : MvccKey} :
    ((MvccKey.version k a).encode ≤ key.encode ∧
        key.encode < (MvccKey.version k maxVersion).encode ++ [0]) ↔
      ∃ v, key = .version k v ∧ a ≤ v := by
  have hstop : (MvccKey.version k maxVersion).encode ++ [0] =
      mvccKeyKindPrefix .version ++
        (escape k ++ 0 :: 0 :: (putUint 8 maxVersion.val ++ [0])) := by
    simp [encode_version]
  have hlast : ∀ v : Version, putUint 8 v.val < putUint 8 maxVersion.val ++ [0] := by
    intro v
    have happ := append_lt_append (a := putUint 8 v.val) (c := [])
      (b := putUint 8 maxVersion.val) (d := [0]) (by simp)
    rw [List.append_nil] at happ
    rw [happ]
    rcases lt_or_eq_of_le (le_maxVersion v) with h | h
    · exact Or.inl ((putUint_lt (version_lt _) (version_lt _)).mpr h)
    · exact Or.inr ⟨by rw [h], List.nil_lt_cons 0 []⟩
  rw [hstop]
  constructor
  · rintro ⟨hle, hlt⟩
    obtain ⟨k', v, rfl⟩ := version_of_le (by simpa [encode_version] using hle)
    rw [version_encode_le] at hle
    rw [version_lt_iff] at hlt
    rcases hle with h | ⟨rfl, hav⟩ <;> rcases hlt with h' | ⟨h', -⟩
    · exact absurd h (not_lt.mpr (le_of_lt h'))
    · exact absurd h (h' ▸ lt_irrefl _)
    · exact absurd h' (lt_irrefl _)
    · exact ⟨v, rfl, hav⟩
  · rintro ⟨v, rfl, hav⟩
    exact ⟨version_encode_le.mpr (Or.inr ⟨rfl, hav⟩), version_lt_iff.mpr (Or.inr ⟨rfl, hlast v⟩)⟩

theorem startsWith_kind (k : MvccKeyKind) (t : Bytes) (key : MvccKey) :
    mvccKeyKindPrefix k ++ t <+: key.encode ↔ kind key = k ∧ t <+: payload key := by
  have hbyte : k.byte = (kind key).byte ↔ kind key = k := by
    cases k <;> cases kind key <;> decide
  rw [encode_eq, mvccKeyKindPrefix, mvccKeyKindPrefix, List.append_assoc, List.append_assoc,
    List.prefix_append_right_inj]
  simp [List.cons_prefix_cons, hbyte]

theorem active_startsWith {key : MvccKey} :
    activeTransactionPrefix <+: key.encode ↔ ∃ v, key = .txnActive v := by
  have hk := startsWith_kind .txnActive [] key
  rw [List.append_nil] at hk
  rw [activeTransactionPrefix, hk]
  cases key <;> simp [kind]

/-- The prefix of a transaction's write records finds exactly these. -/
theorem write_startsWith {v : Version} {key : MvccKey} :
    transactionWritePrefix v <+: key.encode ↔ ∃ k, key = .txnWrite v k := by
  rw [transactionWritePrefix, appendUint64, startsWith_kind]
  cases key with
  | nextVersion => simp [kind]
  | txnActive w => simp [kind]
  | version k w => simp [kind]
  | txnWrite w k =>
    have hw : putUint 8 v.val <+: putUint 8 w.val ++ (escape k ++ [0, 0]) ↔ v = w := by
      constructor
      · intro h
        have hle := List.prefix_of_prefix_length_le h (List.prefix_append _ _) (by simp)
        exact encodeVersion_injective (hle.eq_of_length (by simp))
      · intro h
        rw [h]
        exact List.prefix_append _ _
    simp [kind, payload, hw, eq_comm]

/-- The prefix of a raw key finds the versions of all keys that begin with it. -/
theorem versioned_startsWith {p : Bytes} {key : MvccKey} :
    versionedKeyPrefix p <+: key.encode ↔ ∃ k v, key = .version k v ∧ p <+: k := by
  rw [versionedKeyPrefix, appendEscapedRawKey_eq, startsWith_kind]
  cases key with
  | nextVersion => simp [kind]
  | txnActive w => simp [kind]
  | txnWrite w k => simp [kind]
  | version k w => simp [kind, payload, escape_startsWith]

theorem encode_strictMono :
    StrictMono (fun p : Bytes ×ₗ Version => (versionedKey (ofLex p).1 (ofLex p).2).encode) := by
  intro p q hlt
  exact version_encode_lt.mpr (Prod.Lex.lt_iff.mp hlt)

theorem inRange_iff {a b k : Bytes} :
    OrderedMap.inRange (some a) (some b) k = true ↔ a ≤ k ∧ k < b := by
  simp [OrderedMap.inRange]

/-- Versioned keys compare as pairs of raw key and version. So the ranges that
Get and write scan hold the versions of one key between two versions, and the
encoded prefix of a prefix scan matches the keys with the raw prefix. -/
theorem encode_order :
    (∀ k₁ k₂ v₁ v₂, cmp (versionedKey k₁ v₁).encode (versionedKey k₂ v₂).encode =
        cmp (toLex (k₁, v₁)) (toLex (k₂, v₂))) ∧
      (∀ k version key, OrderedMap.inRange (some (versionedKey k 0).encode)
          (some (versionedKey k (version + 1)).encode) (MvccKey.encode key) = true ↔
        ∃ v, key = versionedKey k v ∧ 0 ≤ v ∧ v < version + 1) ∧
      (∀ k fromVersion key, OrderedMap.inRange (some (versionedKey k fromVersion).encode)
          (some ((versionedKey k maxVersion).encode ++ [0])) (MvccKey.encode key) = true ↔
        ∃ v, key = versionedKey k v ∧ fromVersion ≤ v ∧ v ≤ maxVersion) ∧
      ∀ p k v, versionedKeyPrefix p <+: (versionedKey k v).encode ↔ p <+: k := by
  refine ⟨?_, ?_, ?_, ?_⟩
  · intro k₁ k₂ v₁ v₂
    -- the two sides order byte strings by instances that only unfold to each other
    convert encode_strictMono.cmp_map_eq (toLex (k₁, v₁)) (toLex (k₂, v₂)) <;> rfl
  · intro k version key
    exact inRange_iff.trans version_range
  · intro k fromVersion key
    refine inRange_iff.trans (version_range_last.trans ?_)
    simp only [le_maxVersion, and_true]
    rfl
  · intro p k v
    apply versioned_startsWith.trans
    constructor
    · intro h
      obtain ⟨k', v', heq, hp⟩ := h
      cases heq
      exact hp
    · intro hp
      exact ⟨k, v, rfl, hp⟩

end SpaceDB.Proofs
