import SpaceDB.Proofs.KeyOrder

namespace SpaceDB.Proofs
open Lib Storage

def recordAt (s : Store) (key : MvccKey) : Option Slice := s.find? key.encode

def Encoded (s : Store) : Prop := ∀ e ∈ s.entries, ∃ key : MvccKey, e.1 = key.encode

@[simp] theorem recordAt_insert (s : Store) (key key' : MvccKey) (v : Slice) :
    recordAt (s.insert key'.encode v) key = if key = key' then some v else recordAt s key := by
  simp only [recordAt, OrderedMap.find?_insert, encode_eq_iff]

@[simp] theorem recordAt_erase (s : Store) (key key' : MvccKey) :
    recordAt (s.erase key'.encode) key = if key = key' then none else recordAt s key := by
  simp only [recordAt, OrderedMap.find?_erase, encode_eq_iff]

theorem encoded_empty : Encoded .empty := by
  intro e he
  cases he

theorem Encoded.insert {s : Store} (h : Encoded s) (key : MvccKey) (v : Slice) :
    Encoded (s.insert key.encode v) := by
  intro e he
  rcases OrderedMap.mem_insertEntry_sub he with he | he
  · exact ⟨key, by rw [he]⟩
  · exact h e he

theorem Encoded.erase {s : Store} (h : Encoded s) (b : Bytes) : Encoded (s.erase b) := by
  intro e he
  exact h e (List.mem_filter.mp he).1

/-- Two stores of the MVCC with the same records are the same. -/
theorem eq_of_recordAt {s s' : Store} (h : Encoded s) (h' : Encoded s')
    (hr : ∀ key, recordAt s key = recordAt s' key) : s = s' := by
  apply OrderedMap.ext_find?
  intro b
  by_cases hb : ∃ key : MvccKey, b = key.encode
  · obtain ⟨key, rfl⟩ := hb
    exact hr key
  · have hnone : ∀ {r : Store}, Encoded r → r.find? b = none := by
      intro r hr
      apply OrderedMap.find?_eq_none.mpr
      intro e he heq
      obtain ⟨key, hkey⟩ := hr e he
      exact hb ⟨key, heq ▸ hkey⟩
    rw [hnone h, hnone h']

def eraseAll (keys : List MvccKey) (s : Store) : Store :=
  keys.foldl (fun s key => s.erase key.encode) s

@[simp] theorem eraseAll_cons (key : MvccKey) (keys : List MvccKey) (s : Store) :
    eraseAll (key :: keys) s = eraseAll keys (s.erase key.encode) := rfl

theorem recordAt_eraseAll (keys : List MvccKey) (s : Store) (key : MvccKey) :
    recordAt (eraseAll keys s) key = if key ∈ keys then none else recordAt s key := by
  induction keys generalizing s with
  | nil => rfl
  | cons k keys ih =>
    rw [eraseAll_cons, ih, recordAt_erase]
    by_cases hk : key = k <;> simp [hk]

theorem Encoded.eraseAll {s : Store} (h : Encoded s) (keys : List MvccKey) :
    Encoded (eraseAll keys s) := by
  induction keys generalizing s with
  | nil => exact h
  | cons k keys ih => exact ih (h.erase k.encode)

/-- A list of entries whose keys come from `f` is the image of a list. -/
theorem exists_preimage {A : Type} (f : A → Bytes) {es : List (Bytes × Slice)}
    (h : ∀ e ∈ es, ∃ a, e.1 = f a) :
    ∃ as : List (A × Slice), es = as.map (fun p => (f p.1, p.2)) := by
  induction es with
  | nil => exact ⟨[], rfl⟩
  | cons e es ih =>
    obtain ⟨a, ha⟩ := h e List.mem_cons_self
    obtain ⟨as, has⟩ := ih (fun d hd => h d (List.mem_cons_of_mem _ hd))
    exact ⟨(a, e.2) :: as, by rw [has, List.map_cons, ← ha]⟩

/-- A scan whose range holds, among the keys of the MVCC, exactly the `mk a`
with `p a` yields exactly the stored ones of them, in key order. -/
theorem scan_typed {A : Type} {s : Store} (hs : Encoded s) (lo hi : Slice) (mk : A → MvccKey)
    (p : A → Prop) (hinj : Function.Injective mk)
    (hr : ∀ key : MvccKey, OrderedMap.inRange lo hi key.encode = true ↔ ∃ a, key = mk a ∧ p a) :
    ∃ as : List (A × Slice),
      Store.scan s lo hi = as.map (fun q => .ok ⟨(mk q.1).encode, q.2⟩) ∧
      (∀ a v, (a, v) ∈ as ↔ p a ∧ recordAt s (mk a) = some v) ∧
      as.Pairwise (fun q r => (mk q.1).encode < (mk r.1).encode) := by
  have hkeys : ∀ e ∈ s.between lo hi, ∃ a, e.1 = (mk a).encode := by
    intro e he
    obtain ⟨hf, hin⟩ := OrderedMap.mem_between.mp he
    obtain ⟨key, hkey⟩ := hs e (OrderedMap.find?_eq_some.mp hf)
    obtain ⟨a, ha, -⟩ := (hr key).mp (hkey ▸ hin)
    exact ⟨a, by rw [hkey, ha]⟩
  obtain ⟨as, has⟩ := exists_preimage (fun a => (mk a).encode) hkeys
  refine ⟨as, ?_, ?_, ?_⟩
  · simp only [Store.scan, has, List.map_map]
    rfl
  · intro a v
    have hmem : (a, v) ∈ as ↔ ((mk a).encode, v) ∈ s.between lo hi := by
      rw [has, List.mem_map]
      constructor
      · intro h
        exact ⟨(a, v), h, rfl⟩
      · intro h
        obtain ⟨q, hq, he⟩ := h
        have h1 : q.1 = a := hinj (encode_injective (congrArg Prod.fst he))
        have h2 : q.2 = v := congrArg Prod.snd he
        rw [← h1, ← h2]
        exact hq
    rw [hmem, OrderedMap.mem_between, hr]
    constructor
    · intro h
      obtain ⟨hf, b, hb, hp⟩ := h
      exact ⟨hinj hb ▸ hp, hf⟩
    · intro h
      exact ⟨h.2, a, rfl, h.1⟩
  · have hsorted := s.between_sorted lo hi
    rw [has, List.pairwise_map] at hsorted
    exact hsorted

/-- The scan of the markers finds the active versions. -/
theorem scan_active {s : Store} (hs : Encoded s) :
    ∃ as : List (Version × Slice),
      Store.scan s (some activeTransactionPrefix) (prefixEnd activeTransactionPrefix) =
        as.map (fun q => .ok ⟨(MvccKey.txnActive q.1).encode, q.2⟩) ∧
      ∀ v, v ∈ as.map Prod.fst ↔ (recordAt s (.txnActive v)).isSome := by
  obtain ⟨as, hscan, hmem, -⟩ := scan_typed hs (some activeTransactionPrefix)
    (prefixEnd activeTransactionPrefix) MvccKey.txnActive (fun _ => True)
    (fun _ _ h => MvccKey.txnActive.inj h) (fun key => by
      rw [inRange_prefixEnd, active_startsWith]
      simp)
  refine ⟨as, hscan, ?_⟩
  intro v
  rw [List.mem_map, Option.isSome_iff_exists]
  constructor
  · intro h
    obtain ⟨q, hq, rfl⟩ := h
    exact ⟨q.2, ((hmem q.1 q.2).mp hq).2⟩
  · intro h
    obtain ⟨x, hx⟩ := h
    exact ⟨(v, x), (hmem v x).mpr ⟨trivial, hx⟩, rfl⟩

/-- The scan of the write records finds each written key once. -/
theorem scan_writes {s : Store} (hs : Encoded s) (v : Version) :
    ∃ as : List (Bytes × Slice),
      Store.scan s (some (transactionWritePrefix v)) (prefixEnd (transactionWritePrefix v)) =
        as.map (fun q => .ok ⟨(MvccKey.txnWrite v q.1).encode, q.2⟩) ∧
      (∀ k, k ∈ as.map Prod.fst ↔ (recordAt s (.txnWrite v k)).isSome) ∧
      (as.map Prod.fst).Nodup := by
  obtain ⟨as, hscan, hmem, hsort⟩ := scan_typed hs (some (transactionWritePrefix v))
    (prefixEnd (transactionWritePrefix v)) (MvccKey.txnWrite v) (fun _ => True)
    (fun _ _ h => (MvccKey.txnWrite.inj h).2) (fun key => by
      rw [inRange_prefixEnd, write_startsWith]
      simp)
  refine ⟨as, hscan, ?_, ?_⟩
  · intro k
    rw [List.mem_map, Option.isSome_iff_exists]
    constructor
    · intro h
      obtain ⟨q, hq, rfl⟩ := h
      exact ⟨q.2, ((hmem q.1 q.2).mp hq).2⟩
    · intro h
      obtain ⟨x, hx⟩ := h
      exact ⟨(k, x), (hmem k x).mpr ⟨trivial, hx⟩, rfl⟩
  · rw [List.nodup_iff_pairwise_ne, List.pairwise_map]
    apply hsort.imp
    intro a b hlt heq
    rw [heq] at hlt
    exact lt_irrefl _ hlt

/-- The versions of one key in `[a, b)`, ascending. -/
theorem scan_versions {s : Store} (hs : Encoded s) (k : Bytes) (a b : Version) :
    ∃ as : List (Version × Slice),
      Store.scan s (some (MvccKey.version k a).encode) (some (MvccKey.version k b).encode) =
        as.map (fun q => .ok ⟨(MvccKey.version k q.1).encode, q.2⟩) ∧
      (∀ v x, (v, x) ∈ as ↔ (a ≤ v ∧ v < b) ∧ recordAt s (.version k v) = some x) ∧
      as.Pairwise (fun q r => q.1 < r.1) := by
  obtain ⟨as, hscan, hmem, hsort⟩ := scan_typed hs (some (MvccKey.version k a).encode)
    (some (MvccKey.version k b).encode) (MvccKey.version k)
    (fun v => a ≤ v ∧ v < b) (fun _ _ h => (MvccKey.version.inj h).2) (fun key => by
      rw [← version_range]
      simp [OrderedMap.inRange])
  refine ⟨as, hscan, hmem, hsort.imp ?_⟩
  intro q r h
  simpa using version_encode_lt.mp h

/-- Every version of one key from `a` on, ascending. -/
theorem scan_versions_last {s : Store} (hs : Encoded s) (k : Bytes) (a : Version) :
    ∃ as : List (Version × Slice),
      Store.scan s (some (MvccKey.version k a).encode)
          (some ((MvccKey.version k maxVersion).encode ++ [0])) =
        as.map (fun q => .ok ⟨(MvccKey.version k q.1).encode, q.2⟩) ∧
      (∀ v x, (v, x) ∈ as ↔ a ≤ v ∧ recordAt s (.version k v) = some x) ∧
      as.Pairwise (fun q r => q.1 < r.1) := by
  obtain ⟨as, hscan, hmem, hsort⟩ := scan_typed hs (some (MvccKey.version k a).encode)
    (some ((MvccKey.version k maxVersion).encode ++ [0])) (MvccKey.version k) (fun v => a ≤ v)
    (fun _ _ h => (MvccKey.version.inj h).2) (fun key => by
      rw [← version_range_last]
      simp [OrderedMap.inRange])
  refine ⟨as, hscan, hmem, hsort.imp ?_⟩
  intro q r h
  simpa using version_encode_lt.mp h

/-- Every version of every key with the prefix `p`, by key and then version. -/
theorem scan_versioned {s : Store} (hs : Encoded s) (p : Bytes) :
    ∃ as : List ((Bytes × Version) × Slice),
      Store.scan s (some (versionedKeyPrefix p)) (prefixEnd (versionedKeyPrefix p)) =
        as.map (fun q => .ok ⟨(MvccKey.version q.1.1 q.1.2).encode, q.2⟩) ∧
      (∀ k v x, ((k, v), x) ∈ as ↔ p <+: k ∧ recordAt s (.version k v) = some x) ∧
      as.Pairwise (fun q r => q.1.1 < r.1.1 ∨ q.1.1 = r.1.1 ∧ q.1.2 < r.1.2) := by
  obtain ⟨as, hscan, hmem, hsort⟩ := scan_typed hs (some (versionedKeyPrefix p))
    (prefixEnd (versionedKeyPrefix p)) (fun a : Bytes × Version => MvccKey.version a.1 a.2)
    (fun a => p <+: a.1)
    (fun a b h => Prod.ext (MvccKey.version.inj h).1 (MvccKey.version.inj h).2) (fun key => by
      rw [inRange_prefixEnd, versioned_startsWith]
      simp)
  refine ⟨as, hscan, fun k v x => hmem (k, v) x, hsort.imp ?_⟩
  intro q r h
  exact version_encode_lt.mp h

end SpaceDB.Proofs
