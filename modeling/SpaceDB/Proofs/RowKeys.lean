import SpaceDB.Proofs.PrimaryKeys
import SpaceDB.Proofs.RowStore

namespace SpaceDB.Proofs
open Lib Storage Sql Engine

/-- Different bits have different places. -/
theorem floatPlace_injective {f g : Float64} (h : floatPlace f = floatPlace g) : f = g := by
  have hf : f.magnitude < 2 ^ 63 := Nat.mod_lt _ (by decide)
  have hg : g.magnitude < 2 ^ 63 := Nat.mod_lt _ (by decide)
  have hfields : f.negative = g.negative ∧ f.magnitude = g.magnitude := by
    unfold floatPlace at h
    cases hsf : f.negative <;> cases hsg : g.negative <;>
      simp only [hsf, hsg, if_true, if_false, Bool.false_eq_true] at h <;>
      simp only [true_and, reduceCtorEq, false_and] <;> omega
  rw [← Float64.ofMagnitude_magnitude f, ← Float64.ofMagnitude_magnitude g, hfields.1, hfields.2]

/-- The first byte of a primary key is the tag of its kind. -/
theorem encode_head (v : Value) : ∃ rest, encodePrimaryKey v = Fin.ofNat 256 v.kind :: rest := by
  cases v with
  | null => exact ⟨_, rfl⟩
  | boolean b => exact ⟨_, rfl⟩
  | integer i => exact ⟨_, rfl⟩
  | float f => exact ⟨_, rfl⟩
  | string s => exact ⟨_, rfl⟩

/-- The first byte of a key says its kind. -/
theorem kind_of_encode {p q : Value} (h : encodePrimaryKey p = encodePrimaryKey q) :
    p.kind = q.kind := by
  obtain ⟨x, hx⟩ := encode_head p
  obtain ⟨y, hy⟩ := encode_head q
  rw [hx, hy] at h
  have htag := congrArg Fin.val (List.cons.inj h).1
  simp only [Fin.val_ofNat] at htag
  have hsmall : ∀ v : Value, v.kind < 256 := by
    intro v
    cases v <;> simp [Value.kind]
  rwa [Nat.mod_eq_of_lt (hsmall p), Nat.mod_eq_of_lt (hsmall q)] at htag

/-- Within one kind the bytes after the tag determine the content. -/
theorem encodePrimaryKey_injective {p q : Value} (h : encodePrimaryKey p = encodePrimaryKey q) :
    p = q := by
  have hkind := kind_of_encode h
  cases p with
  | null =>
    cases q with
    | null => rfl
    | _ => cases hkind
  | boolean x =>
    cases q with
    | boolean y => cases x <;> cases y <;> simp [encodePrimaryKey] at h ⊢
    | _ => cases hkind
  | integer i =>
    cases q with
    | integer j =>
      have hi := i.property
      have hj := j.property
      rw [encode_integer, encode_integer] at h
      have hplace := putUint_injective (by omega) (by omega) (List.cons.inj h).2
      rw [Subtype.ext (show i.val = j.val by omega)]
    | _ => cases hkind
  | float f =>
    cases q with
    | float g =>
      rw [encode_float, encode_float] at h
      have hplace := putUint_injective (floatPlace_lt f) (floatPlace_lt g) (List.cons.inj h).2
      rw [floatPlace_injective hplace]
    | _ => cases hkind
  | string x =>
    cases q with
    | string y => rw [(List.cons.inj h).2]
    | _ => cases hkind

theorem rowKey_exists {name : Bytes} {p : Value} :
    (∃ key, rowKey name p = .ok key) ↔ name ≠ [] := by
  constructor
  · intro h hname
    obtain ⟨key, hkey⟩ := h
    rw [hname] at hkey
    cases hkey
  · intro hname
    exact ⟨_, by simp [rowKey, rowPrefixKey, hname]; rfl⟩

/-- Every table with a name has row keys. Where the names have no separator, a
row key determines its table and its primary key, the prefix of a table is a
prefix of its own row keys only, and no key of a table is a prefix of a row
key. -/
theorem row_keys_exact {a b : Bytes} (ha : keySeparator ∉ a) (hb : keySeparator ∉ b) (p q : Value) :
    ((∃ key, rowKey a p = .ok key) ↔ a ≠ []) ∧
      ∀ key key', rowKey a p = .ok key → rowKey b q = .ok key' →
        (key = key' ↔ a = b ∧ p = q) ∧
        (∀ start, rowPrefixKey a = .ok start → (start <+: key' ↔ a = b)) ∧
        ∀ name tableBytes, tableKey name = .ok tableBytes →
          tableBytes ≠ key' ∧ ¬ tableBytes <+: key' := by
  refine ⟨rowKey_exists, ?_⟩
  intro key key' hkey hkey'
  refine ⟨⟨?_, ?_⟩, ?_, ?_⟩
  · intro heq
    have hbytes : rowKey b q = .ok key := by rw [hkey', heq]
    rw [rowKey_ok hkey] at hbytes
    have hname : a = b := by
      have hne : a ≠ [] := rowKey_exists.mp ⟨key, hkey⟩
      have hstart : rowPrefixKey a = .ok (keyNamespaceRow :: a ++ [keySeparator]) := by
        simp [rowPrefixKey, hne]
      exact rowKey_separated ha hb hstart hbytes (List.prefix_append _ _)
    subst hname
    rw [rowKey_ok hkey, rowKey_ok hkey'] at heq
    exact ⟨rfl, encodePrimaryKey_injective (List.append_cancel_left heq)⟩
  · rintro ⟨rfl, rfl⟩
    rw [rowKey_ok hkey, rowKey_ok hkey']
  · intro start hstart
    constructor
    · exact rowKey_separated ha hb hstart hkey'
    · intro hname
      rw [rowPrefixKey_ok hstart, rowKey_ok hkey', hname]
      exact List.prefix_append _ _
  · intro name tableBytes htable
    have hnot : ¬ tableBytes <+: key' := by
      rw [tableKey_ok htable, rowKey_ok hkey']
      simp [List.cons_prefix_cons, keyNamespaceTable, keyNamespaceRow]
    exact ⟨fun heq => hnot (heq ▸ List.prefix_refl _), hnot⟩

/-- The string key of the one table holds the bytes with which the keys of the
other begin. -/
theorem row_keys_exact_nested : ∃ key key',
    rowKey [97] (.string [97, 0, 4]) = .ok key ∧ rowKey [97, 97] (.string []) = .ok key' ∧
    key ≠ key' := by
  obtain ⟨hsome, hkeys⟩ := row_keys_exact (a := [97]) (b := [97, 97]) (by decide) (by decide)
    (.string [97, 0, 4]) (.string [])
  obtain ⟨key, hkey⟩ := hsome.mpr (by decide)
  obtain ⟨key', hkey'⟩ : ∃ key', rowKey [97, 97] (.string []) = .ok key' :=
    rowKey_exists.mpr (by decide)
  refine ⟨key, key', hkey, hkey', ?_⟩
  intro heq
  have hname := ((hkeys key key' hkey hkey').1.mp heq).1
  exact absurd hname (by decide)

end SpaceDB.Proofs
