import SpaceDB.Proofs.LogRecords

namespace SpaceDB.Proofs
open Lib Storage

variable {names : TempNames} {disk : Disk} {name : Path} {content : Bytes} {d : DiskEngine}
  {M : Store}

/-- The index finds in the log exactly the values of the map. -/
structure Located (content : Bytes) (keydir : Keydir) (M : Store) : Prop where
  found : ∀ {k position}, keydir.find? k = some position →
    ∃ slot, M.find? k = some slot ∧ ∃ v, slot = some v ∧ HoldsAt content position k v
  missing : ∀ {k}, keydir.find? k = none → M.find? k = none

theorem located_empty (content : Bytes) : Located content .empty .empty := by
  refine ⟨?_, fun _ => rfl⟩
  intro k position hk
  cases hk

/-- Whatever is appended, the index still finds the same values. -/
theorem Located.append {keydir : Keydir} (h : Located content keydir M) (more : Bytes) :
    Located (content ++ more) keydir M := by
  refine ⟨?_, h.missing⟩
  intro k position hk
  obtain ⟨slot, hslot, v, hv, hat⟩ := h.found hk
  exact ⟨slot, hslot, v, hv, hat.append more⟩

/-- A new record for a key hides the older ones. -/
theorem Located.insert {keydir : Keydir} {position : LogPosition} {k v : Bytes}
    (h : Located content keydir M) (hat : HoldsAt content position k v) :
    Located content (keydir.insert k position) (M.insert k (some v)) := by
  constructor
  · intro j position' hj
    rw [OrderedMap.find?_insert] at hj ⊢
    by_cases hk : j = k
    · rw [if_pos hk] at hj ⊢
      cases hj
      exact ⟨_, rfl, v, rfl, hk ▸ hat⟩
    · rw [if_neg hk] at hj ⊢
      exact h.found hj
  · intro j hj
    rw [OrderedMap.find?_insert] at hj ⊢
    by_cases hk : j = k
    · rw [if_pos hk] at hj
      cases hj
    · rw [if_neg hk] at hj ⊢
      exact h.missing hj

theorem Located.erase {keydir : Keydir} (h : Located content keydir M) (k : Bytes) :
    Located content (keydir.erase k) (M.erase k) := by
  constructor
  · intro j position hj
    rw [OrderedMap.find?_erase] at hj ⊢
    by_cases hk : j = k
    · rw [if_pos hk] at hj
      cases hj
    · rw [if_neg hk] at hj ⊢
      exact h.found hj
  · intro j hj
    rw [OrderedMap.find?_erase] at hj ⊢
    by_cases hk : j = k
    · rw [if_pos hk]
    · rw [if_neg hk] at hj ⊢
      exact h.missing hj

def ItemOf (content : Bytes) (item : Bytes × LogPosition) (entry : Bytes × Slice) : Prop :=
  item.1 = entry.1 ∧ ∃ v, entry.2 = some v ∧ HoldsAt content item.2 item.1 v

theorem Located.entries {keydir : Keydir} (h : Located content keydir M) :
    List.Forall₂ (ItemOf content) keydir.entries M.entries :=
  OrderedMap.forall₂_of_find? (fun hk => h.found hk) h.missing

theorem Located.between {keydir : Keydir} (h : Located content keydir M) (start stop : Slice) :
    List.Forall₂ (ItemOf content) (keydir.between start stop) (M.between start stop) := by
  refine List.rel_filter ?_ h.entries
  intro item entry hitem
  change OrderedMap.inRange start stop item.1 = true ↔ _
  rw [hitem.1]

/-- The descending callback keeps what lies in the range. -/
theorem appendReverseItems_eq (start stop : Slice) (items : List (Bytes × LogPosition))
    (hs : items.Pairwise (fun a b => b.1 < a.1)) :
    appendReverseItems start stop items =
      items.filter (fun i => OrderedMap.inRange start stop i.1) := by
  induction items with
  | nil => rfl
  | cons item rest ih =>
    obtain ⟨hlt, hrest⟩ := List.pairwise_cons.mp hs
    rw [appendReverseItems, ih hrest]
    split_ifs with hstop hstart
    · rw [List.filter_cons_of_neg]
      cases stop with
      | none => cases hstop
      | some e => simp_all [OrderedMap.inRange]
    · -- every key that is still to come is below the start as well
      cases start with
      | none => cases hstart
      | some b =>
        have hb : item.1 < b := by simpa using hstart
        symm
        rw [List.filter_eq_nil_iff]
        intro i hi
        have hib : i.1 < b := by
          rcases List.mem_cons.mp hi with rfl | hi
          · exact hb
          · exact lt_trans (hlt i hi) hb
        simp [OrderedMap.inRange, not_le.mpr hib]
    · rw [List.filter_cons_of_pos]
      cases start <;> cases stop <;> simp_all [OrderedMap.inRange]

/-- A range whose start is not below its stop. -/
theorem between_eq_nil (m : Keydir) {start stop : Slice}
    (h : start.any (fun b => stop.any (fun e => decide (e ≤ b))) = true) :
    m.between start stop = [] := by
  rw [OrderedMap.between, List.filter_eq_nil_iff]
  intro i _ hi
  cases start with
  | none => cases h
  | some b =>
    cases stop with
    | none => cases h
    | some e =>
      simp only [OrderedMap.inRange, Option.all_some, Bool.and_eq_true, decide_eq_true_eq,
        Option.any_some] at hi h
      exact absurd (lt_of_le_of_lt hi.1 hi.2) (not_lt.mpr h)

/-- The B-tree walks give the range in ascending or descending order. -/
theorem snapshotRange_eq (d : DiskEngine) (start stop : Slice) (reverse : Bool) :
    d.snapshotRange start stop reverse =
      if reverse then (d.keydir.between start stop).reverse else d.keydir.between start stop := by
  have hdesc : ∀ {items : List (Bytes × LogPosition)}, items.Pairwise (fun a b => a.1 < b.1) →
      items.reverse.Pairwise (fun a b => b.1 < a.1) := List.pairwise_reverse.mpr
  unfold DiskEngine.snapshotRange
  by_cases hempty : start.any (fun b => stop.any (fun e => decide (e ≤ b))) = true
  · rw [if_pos hempty, between_eq_nil _ hempty]
    simp
  rw [if_neg hempty]
  cases reverse with
  | false => rfl
  | true =>
    cases stop with
    | none =>
      change appendReverseItems _ _ _ = _
      rw [appendReverseItems_eq _ _ _ (hdesc d.keydir.sorted), List.filter_reverse]
      rfl
    | some e =>
      change appendReverseItems _ _ _ = (d.keydir.between start (some e)).reverse
      rw [appendReverseItems_eq _ _ _ (hdesc (d.keydir.sorted.filter _)), List.filter_reverse,
        List.filter_filter]
      refine congrArg List.reverse (List.filter_congr ?_)
      intro i _
      simp only [OrderedMap.inRange, Option.all_some]
      by_cases hlt : i.1 < e
      · simp [le_of_lt hlt]
      · simp [hlt]

/-- The scan loop reads every item of a snapshot. -/
theorem readItems_run (names : TempNames) {ε : Type} {items : List (Bytes × LogPosition)}
    {entries : List (Bytes × Slice)} (hlog : d.log = ⟨name⟩)
    (hf : disk.files.find? name = some content)
    (h : List.Forall₂ (ItemOf content) items entries) :
    (d.readItems items : FileProg ε _).run (fileSystem names) disk =
      (.ok (entries.map fun e => .ok ⟨e.1, e.2⟩), disk) := by
  induction h with
  | nil => rfl
  | @cons item entry items entries hitem hrest ih =>
    obtain ⟨key, position⟩ := item
    obtain ⟨key', slot⟩ := entry
    obtain ⟨rfl, v, rfl, hat⟩ := hitem
    have hread := readLogValue_run names hf hat
    rw [DiskEngine.readItems, hlog, Prog.bind_eq, Prog.run_bind, Prog.run_attempt, hread]
    simp only [Prog.bind_eq, Prog.pure_eq, Prog.run_bind_ok _ ih, Prog.run_done, List.map_cons]

/-- Get reads the value of the map. -/
theorem get_run (names : TempNames) (hlog : d.log = ⟨name⟩)
    (hf : disk.files.find? name = some content)
    (h : Located content d.keydir M) (k : Bytes) :
    (d.get k).run (fileSystem names) disk = (.ok (M.find? k).join, disk) := by
  unfold DiskEngine.get
  cases hk : d.keydir.find? k with
  | none => simp [h.missing hk]
  | some position =>
    obtain ⟨slot, hslot, v, rfl, hat⟩ := h.found hk
    have hread := readLogValue_run names hf hat
    simp only [hlog, Prog.bind_eq, Prog.run_bind, Prog.run_mapError, hread, hslot, Except.mapError,
      Option.join_some]
    rfl

/-- A scan reads the entries of the map in the range. -/
theorem scan_run {ε : Type} (names : TempNames) (hlog : d.log = ⟨name⟩)
    (hf : disk.files.find? name = some content) (h : Located content d.keydir M)
    (start stop : Slice) (reverse : Bool) :
    (d.scan start stop reverse : FileProg ε _).run (fileSystem names) disk =
      (.ok (if reverse then (Store.scan M start stop).reverse else Store.scan M start stop),
        disk) := by
  rw [DiskEngine.scan, snapshotRange_eq]
  cases reverse with
  | false => exact readItems_run names hlog hf (h.between start stop)
  | true =>
    have hrun := readItems_run (ε := ε) names hlog hf
      (List.forall₂_reverse_iff.mpr (h.between start stop))
    rw [List.map_reverse] at hrun
    exact hrun

end SpaceDB.Proofs
