import Mathlib.Data.List.Forall2
import Mathlib.Data.List.Pairwise
import Mathlib.Data.List.Sort
import Mathlib.Order.Lattice

namespace Lib

/-- A finite map as the list of its entries in strictly ascending key order. -/
@[ext] structure OrderedMap (α β : Type) [LinearOrder α] where
  entries : List (α × β)
  sorted : entries.Pairwise (fun a b => a.1 < b.1)

namespace OrderedMap
variable {α β γ : Type} [LinearOrder α]

def empty : OrderedMap α β := ⟨[], .nil⟩

def find? (m : OrderedMap α β) (k : α) : Option β :=
  (m.entries.find? (fun e => decide (e.1 = k))).map Prod.snd

def insertEntry (k : α) (v : β) : List (α × β) → List (α × β)
  | [] => [(k, v)]
  | e :: es =>
    if k < e.1 then (k, v) :: e :: es
    else if k = e.1 then (k, v) :: es
    else e :: insertEntry k v es

theorem mem_insertEntry_sub {k : α} {v : β} {es : List (α × β)} {e : α × β}
    (he : e ∈ insertEntry k v es) : e = (k, v) ∨ e ∈ es := by
  induction es with
  | nil => simpa [insertEntry] using he
  | cons d es ih =>
    simp only [insertEntry] at he
    split_ifs at he
    · simpa using he
    · rcases List.mem_cons.mp he with he | he
      · exact Or.inl he
      · exact Or.inr (List.mem_cons_of_mem _ he)
    · rcases List.mem_cons.mp he with he | he
      · exact Or.inr (he ▸ List.mem_cons_self)
      · exact (ih he).imp id (List.mem_cons_of_mem _)

theorem insertEntry_sorted {k : α} {v : β} {es : List (α × β)}
    (hs : es.Pairwise (fun a b => a.1 < b.1)) :
    (insertEntry k v es).Pairwise (fun a b => a.1 < b.1) := by
  induction es with
  | nil => simp [insertEntry]
  | cons d es ih =>
    obtain ⟨hd, hes⟩ := List.pairwise_cons.mp hs
    simp only [insertEntry]
    split_ifs with hlt heq
    · refine List.pairwise_cons.mpr ⟨?_, hs⟩
      intro e he
      rcases List.mem_cons.mp he with rfl | he
      · exact hlt
      · exact lt_trans hlt (hd e he)
    · exact List.pairwise_cons.mpr ⟨fun e he => heq ▸ hd e he, hes⟩
    · refine List.pairwise_cons.mpr ⟨?_, ih hes⟩
      intro e he
      rcases mem_insertEntry_sub he with rfl | he
      · exact lt_of_le_of_ne (not_lt.mp hlt) (Ne.symm heq)
      · exact hd e he

def insert (m : OrderedMap α β) (k : α) (v : β) : OrderedMap α β :=
  ⟨insertEntry k v m.entries, insertEntry_sorted m.sorted⟩

def erase (m : OrderedMap α β) (k : α) : OrderedMap α β :=
  ⟨m.entries.filter (fun e => decide (e.1 ≠ k)), m.sorted.filter _⟩

/-- The half-open interval from `lo` to `hi`; a missing bound does not bind. -/
def inRange (lo hi : Option α) (k : α) : Bool :=
  lo.all (fun l => decide (l ≤ k)) && hi.all (fun u => decide (k < u))

def between (m : OrderedMap α β) (lo hi : Option α) : List (α × β) :=
  m.entries.filter (fun e => inRange lo hi e.1)

theorem unique {m : OrderedMap α β} {a b : α × β} (ha : a ∈ m.entries) (hb : b ∈ m.entries)
    (hk : a.1 = b.1) : a = b := by
  by_contra hne
  have hs : m.entries.Pairwise (fun a b => a.1 ≠ b.1) := m.sorted.imp ne_of_lt
  have hsymm : Std.Symm (fun a b : α × β => a.1 ≠ b.1) := ⟨fun _ _ h => h.symm⟩
  exact hs.forall ha hb hne hk

theorem find?_eq_some {m : OrderedMap α β} {k : α} {v : β} :
    m.find? k = some v ↔ (k, v) ∈ m.entries := by
  constructor
  · intro h
    obtain ⟨e, he, rfl⟩ := Option.map_eq_some_iff.mp h
    have hk : e.1 = k := by simpa using List.find?_some he
    rw [← hk]
    exact List.mem_of_find?_eq_some he
  · intro h
    have hsome : (m.entries.find? (fun e => decide (e.1 = k))).isSome := by
      rw [List.find?_isSome]
      exact ⟨(k, v), h, by simp⟩
    obtain ⟨e, he⟩ := Option.isSome_iff_exists.mp hsome
    have hk : e.1 = k := by simpa using List.find?_some he
    have hkv : e = (k, v) := unique (List.mem_of_find?_eq_some he) h hk
    simp [find?, he, hkv]

theorem find?_eq_none {m : OrderedMap α β} {k : α} :
    m.find? k = none ↔ ∀ e ∈ m.entries, e.1 ≠ k := by
  simp [find?, List.find?_eq_none]

/-- Two maps with the same lookups are the same map, entry by entry. -/
theorem ext_find? {m m' : OrderedMap α β} (h : ∀ k, m.find? k = m'.find? k) : m = m' := by
  have hmem : ∀ e : α × β, e ∈ m.entries ↔ e ∈ m'.entries := by
    rintro ⟨k, v⟩
    rw [← find?_eq_some, ← find?_eq_some, h k]
  have hlt : Std.Irrefl (fun a b : α × β => a.1 < b.1) := ⟨fun a => lt_irrefl a.1⟩
  have hasymm : Std.Antisymm (fun a b : α × β => a.1 < b.1) :=
    ⟨fun a b hab hba => absurd hab (not_lt.mpr (le_of_lt hba))⟩
  have he : m.entries = m'.entries :=
    List.Pairwise.eq_of_mem_iff m.sorted m'.sorted (fun e => hmem e)
  cases m
  cases m'
  simpa using he

@[simp] theorem find?_empty (k : α) : (empty : OrderedMap α β).find? k = none := rfl

theorem find?_cons {e : α × β} {es : List (α × β)}
    (hs : (e :: es).Pairwise (fun a b => a.1 < b.1)) (k : α) :
    (mk (e :: es) hs).find? k =
      if k = e.1 then some e.2 else (mk es (List.pairwise_cons.mp hs).2).find? k := by
  by_cases hk : k = e.1
  · simp [find?, hk]
  · rw [if_neg hk, find?, List.find?_cons_of_neg (by simpa using Ne.symm hk)]
    rfl

/-- A map after an insertion, key by key. -/
theorem find?_insert (m : OrderedMap α β) (k k' : α) (v : β) :
    (m.insert k v).find? k' = if k' = k then some v else m.find? k' := by
  obtain ⟨es, hs⟩ := m
  simp only [find?, insert]
  clear hs
  induction es with
  | nil => by_cases hk : k' = k <;> simp [insertEntry, hk, eq_comm]
  | cons d es ih =>
    by_cases hk : k' = k
    · subst hk
      simp only [insertEntry, if_true] at ih ⊢
      split_ifs with hlt heq
      · simp
      · simp
      · rw [List.find?_cons_of_neg (by simpa using Ne.symm heq)]
        exact ih
    · simp only [insertEntry, hk, if_false] at ih ⊢
      split_ifs with hlt heq
      · rw [List.find?_cons_of_neg (by simpa using Ne.symm hk)]
      · have hd : d.1 ≠ k' := heq ▸ Ne.symm hk
        rw [List.find?_cons_of_neg (by simpa using Ne.symm hk),
          List.find?_cons_of_neg (by simpa using hd)]
      · by_cases hd : d.1 = k'
        · simp [hd]
        · rw [List.find?_cons_of_neg (by simpa using hd),
            List.find?_cons_of_neg (by simpa using hd)]
          exact ih

/-- A map after an erasure, key by key. -/
theorem find?_erase (m : OrderedMap α β) (k k' : α) :
    (m.erase k).find? k' = if k' = k then none else m.find? k' := by
  by_cases hk : k' = k
  · subst hk
    rw [if_pos rfl, find?_eq_none]
    intro e he
    simpa using (List.mem_filter.mp he).2
  · rw [if_neg hk]
    cases hf : m.find? k' with
    | none =>
      rw [find?_eq_none] at hf ⊢
      exact fun e he => hf e (List.mem_filter.mp he).1
    | some v =>
      rw [find?_eq_some] at hf ⊢
      exact List.mem_filter.mpr ⟨hf, by simpa using hk⟩

/-- A new key makes the map one entry longer. -/
theorem length_insert {m : OrderedMap α β} {k : α} (h : m.find? k = none) (v : β) :
    (m.insert k v).entries.length = m.entries.length + 1 := by
  have hfresh : ∀ e ∈ m.entries, k ≠ e.1 := fun e he heq => find?_eq_none.mp h e he heq.symm
  change (insertEntry k v m.entries).length = _
  generalize m.entries = es at hfresh ⊢
  induction es with
  | nil => rfl
  | cons e es ih =>
    obtain ⟨hne, hrest⟩ := List.forall_mem_cons.mp hfresh
    rw [insertEntry, if_neg hne]
    split_ifs
    · rfl
    · rw [List.length_cons, ih hrest, List.length_cons]

theorem insert_erase (m : OrderedMap α β) (k : α) (v : β) :
    (m.erase k).insert k v = m.insert k v := by
  apply ext_find?
  intro k'
  rw [find?_insert, find?_insert, find?_erase]
  split_ifs <;> rfl

def eraseAll (m : OrderedMap α β) (ks : List α) : OrderedMap α β := ks.foldl erase m

theorem eraseAll_entries (m : OrderedMap α β) (ks : List α) :
    (m.eraseAll ks).entries = m.entries.filter (fun e => decide (e.1 ∉ ks)) := by
  induction ks generalizing m with
  | nil => simp [eraseAll]
  | cons k ks ih =>
    change ((m.erase k).eraseAll ks).entries = _
    rw [ih, erase, List.filter_filter]
    congr 1
    funext e
    simp [Bool.and_comm]

theorem find?_eraseAll (m : OrderedMap α β) (ks : List α) (k : α) :
    (m.eraseAll ks).find? k = if k ∈ ks then none else m.find? k := by
  induction ks generalizing m with
  | nil => rfl
  | cons k' ks ih =>
    change ((m.erase k').eraseAll ks).find? k = _
    rw [ih, find?_erase]
    by_cases hk : k = k'
    · simp [hk]
    · simp [hk]

def insertAll (m : OrderedMap α β) (es : List (α × β)) : OrderedMap α β :=
  es.foldl (fun m e => m.insert e.1 e.2) m

/-- Entries that are put in take precedence over those that were there. -/
theorem find?_insertAll {es : List (α × β)} (hs : es.Pairwise (fun a b => a.1 < b.1))
    (m : OrderedMap α β) (k : α) :
    (m.insertAll es).find? k = ((mk es hs).find? k).or (m.find? k) := by
  induction es generalizing m with
  | nil => rfl
  | cons e es ih =>
    have htail := (List.pairwise_cons.mp hs).2
    have hstep : m.insertAll (e :: es) = (m.insert e.1 e.2).insertAll es := rfl
    rw [hstep, ih htail, find?_cons hs, find?_insert]
    split_ifs with hk
    · -- a later entry of this key would stand before this one
      have hnone : (mk es htail).find? k = none := by
        apply find?_eq_none.mpr
        intro d hd
        rw [hk]
        exact ne_of_gt ((List.pairwise_cons.mp hs).1 d hd)
      rw [hnone]
      rfl
    · rfl

theorem insertAll_entries (m : OrderedMap α β) : empty.insertAll m.entries = m := by
  apply ext_find?
  intro k
  rw [find?_insertAll m.sorted, find?_empty, Option.or_none]

theorem mem_between {m : OrderedMap α β} {lo hi : Option α} {e : α × β} :
    e ∈ m.between lo hi ↔ m.find? e.1 = some e.2 ∧ inRange lo hi e.1 = true := by
  rw [find?_eq_some]
  exact List.mem_filter

/-- Two maps whose lookups are related key by key have related entries. -/
theorem forall₂_of_find? {m : OrderedMap α β} {m' : OrderedMap α γ} {R : α → β → γ → Prop}
    (hsome : ∀ {k b}, m.find? k = some b → ∃ c, m'.find? k = some c ∧ R k b c)
    (hnone : ∀ {k}, m.find? k = none → m'.find? k = none) :
    List.Forall₂ (fun e e' => e.1 = e'.1 ∧ R e.1 e.2 e'.2) m.entries m'.entries := by
  have hkeys : m.entries.map Prod.fst = m'.entries.map Prod.fst := by
    have hirr : Std.Irrefl (fun a b : α => a < b) := ⟨lt_irrefl⟩
    have hasymm : Std.Antisymm (fun a b : α => a < b) :=
      ⟨fun a b hab hba => absurd hab (not_lt.mpr (le_of_lt hba))⟩
    refine List.Pairwise.eq_of_mem_iff (List.pairwise_map.mpr m.sorted)
      (List.pairwise_map.mpr m'.sorted) (fun k => ?_)
    rw [List.mem_map, List.mem_map]
    constructor
    · rintro ⟨⟨k, b⟩, hin, rfl⟩
      obtain ⟨c, hc, -⟩ := hsome (find?_eq_some.mpr hin)
      exact ⟨(k, c), find?_eq_some.mp hc, rfl⟩
    · rintro ⟨⟨k, c⟩, hin, rfl⟩
      cases hf : m.find? k with
      | none =>
        have hout := hnone hf
        rw [find?_eq_some.mpr hin] at hout
        cases hout
      | some b => exact ⟨(k, b), find?_eq_some.mp hf, rfl⟩
  rw [List.forall₂_iff_zip]
  have hlen : m.entries.length = m'.entries.length := by
    simpa using congrArg List.length hkeys
  have heq : List.Forall₂ (fun e e' => e.1 = e'.1) m.entries m'.entries := by
    rw [← List.forall₂_map_right_iff, ← List.forall₂_map_left_iff, List.forall₂_eq_eq_eq]
    exact hkeys
  refine ⟨hlen, ?_⟩
  intro e e' hin
  have hk := (List.forall₂_iff_zip.mp heq).2 hin
  obtain ⟨hmem, hmem'⟩ := List.of_mem_zip hin
  obtain ⟨c, hc, hR⟩ := hsome (find?_eq_some.mpr hmem)
  rw [hk, find?_eq_some.mpr hmem', Option.some.injEq] at hc
  exact ⟨hk, hc ▸ hR⟩

theorem between_sorted (m : OrderedMap α β) (lo hi : Option α) :
    (m.between lo hi).Pairwise (fun a b => a.1 < b.1) := m.sorted.filter _

/-- The part of a map whose keys are in the range of `g`, under keys of its own. -/
theorem exists_pullback [LinearOrder γ] (m : OrderedMap α β) {g : γ → α} (hg : StrictMono g) :
    ∃ m' : OrderedMap γ β, ∀ k, m'.find? k = m.find? (g k) := by
  have hinv := hg.injective.isPartialInv
  refine ⟨⟨m.entries.filterMap fun e => (Function.partialInv g e.1).map (·, e.2), ?_⟩, fun k => ?_⟩
  · rw [List.pairwise_filterMap]
    refine m.sorted.imp fun {a b} hab c hc d hd => ?_
    obtain ⟨k, hk, rfl⟩ := Option.map_eq_some_iff.mp hc
    obtain ⟨k', hk', rfl⟩ := Option.map_eq_some_iff.mp hd
    rw [← (hinv _ _).mp hk, ← (hinv _ _).mp hk'] at hab
    exact hg.lt_iff_lt.mp hab
  · refine Option.ext fun v => ?_
    rw [find?_eq_some, find?_eq_some, List.mem_filterMap]
    constructor
    · rintro ⟨⟨a, b⟩, hmem, hk⟩
      obtain ⟨k', hk', heq⟩ := Option.map_eq_some_iff.mp hk
      cases heq
      rwa [(hinv _ _).mp hk']
    · intro hmem
      refine ⟨_, hmem, ?_⟩
      rw [(hinv k (g k)).mpr rfl]
      rfl

def mapValues (f : β → γ) (m : OrderedMap α β) : OrderedMap α γ :=
  ⟨m.entries.map (fun e => (e.1, f e.2)), List.pairwise_map.mpr m.sorted⟩

theorem find?_mapValues (f : β → γ) (m : OrderedMap α β) (k : α) :
    (m.mapValues f).find? k = (m.find? k).map f := by
  simp only [find?, mapValues, List.find?_map, Option.map_map]
  rfl

theorem mapValues_insert (f : β → γ) (m : OrderedMap α β) (k : α) (v : β) :
    (m.insert k v).mapValues f = (m.mapValues f).insert k (f v) := by
  apply ext_find?
  intro k'
  rw [find?_mapValues, find?_insert, find?_insert, find?_mapValues]
  split_ifs <;> rfl

theorem mapValues_erase (f : β → γ) (m : OrderedMap α β) (k : α) :
    (m.erase k).mapValues f = (m.mapValues f).erase k := by
  apply ext_find?
  intro k'
  rw [find?_mapValues, find?_erase, find?_erase, find?_mapValues]
  split_ifs <;> rfl

theorem between_mapValues (f : β → γ) (m : OrderedMap α β) (lo hi : Option α) :
    (m.mapValues f).between lo hi = (m.between lo hi).map (fun e => (e.1, f e.2)) := by
  simp only [between, mapValues, List.filter_map]
  rfl

end OrderedMap

/-- The orders in which one walk after the other over a hash map visits its
entries: any, and each time another one. -/
structure Walks (α : Type) where
  order : Nat → List α → List α
  perm : ∀ i l, (order i l).Perm l

def Walks.same (α : Type) : Walks α := ⟨fun _ l => l, fun _ _ => .refl _⟩

/-- Sorting what a walk has found in an interval gives the interval in order. -/
theorem Walks.sort_between {α β : Type} [LinearOrder α] (w : Walks (α × β)) (i : Nat)
    (m : OrderedMap α β) (lo hi : Option α) :
    ((w.order i m.entries).filter (fun e => OrderedMap.inRange lo hi e.1)).insertionSort
      (fun a b => a.1 ≤ b.1) = m.between lo hi := by
  let r : α × β → α × β → Prop := fun a b => a.1 ≤ b.1
  have htotal : Std.Total r := ⟨fun a b => le_total a.1 b.1⟩
  have htrans : IsTrans (α × β) r := ⟨fun a b c hab hbc => le_trans hab hbc⟩
  have hperm := (List.perm_insertionSort r ((w.order i m.entries).filter
    (fun e => OrderedMap.inRange lo hi e.1))).trans ((w.perm i m.entries).filter _)
  refine hperm.eq_of_pairwise ?_ (List.pairwise_insertionSort r _)
    ((m.between_sorted lo hi).imp le_of_lt)
  intro a b ha hb hab hba
  exact OrderedMap.unique (List.mem_of_mem_filter (hperm.subset ha))
    (List.mem_of_mem_filter hb) (le_antisymm hab hba)

end Lib
