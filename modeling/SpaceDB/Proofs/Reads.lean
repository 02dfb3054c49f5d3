import Mathlib.Data.List.Induction
import SpaceDB.Proofs.Operations

namespace SpaceDB.Proofs
open Lib Storage

variable {n : NilValue} {s : Store} {t : TransactionState}

/-- Every stored version carries a tag `decodeVersionedValue` accepts. -/
def Tagged (s : Store) : Prop :=
  ∀ k v x, recordAt s (.version k v) = some x → ∃ r, decodeVersionedValue x = .ok r

/-- What a snapshot reads at a key: its newest visible version. -/
inductive Reads (s : Store) (t : TransactionState) (k : Bytes) : Slice → Prop where
  | absent (hidden : ∀ v, (recordAt s (.version k v)).isSome → t.isVisible v = false) :
      Reads s t k none
  | newest {v : Version} {x r : Slice} (found : recordAt s (.version k v) = some x)
      (visible : t.isVisible v = true) (value : decodeVersionedValue x = .ok r)
      (last : ∀ w, (recordAt s (.version k w)).isSome → t.isVisible w = true → w ≤ v) :
      Reads s t k r

/-- A snapshot reads one value at a key. -/
theorem Reads.unique {k : Bytes} {r r' : Slice} (h : Reads s t k r) (h' : Reads s t k r') :
    r = r' := by
  cases h with
  | absent hidden =>
    cases h' with
    | absent _ => rfl
    | newest found visible _ _ =>
      rw [hidden _ (by rw [found]; rfl)] at visible
      cases visible
  | newest found visible value last =>
    cases h' with
    | absent hidden =>
      rw [hidden _ (by rw [found]; rfl)] at visible
      cases visible
    | newest found' visible' value' last' =>
      have hv := le_antisymm (last' _ (by rw [found]; rfl) visible)
        (last _ (by rw [found']; rfl) visible')
      subst hv
      rw [found] at found'
      cases found'
      rw [value] at value'
      exact Except.ok.inj value'

theorem visible_le {v : Version} (h : t.isVisible v = true) : v ≤ t.version := by
  unfold TransactionState.isVisible at h
  split at h
  · cases h
  · exact of_decide_eq_true h

/-- The upper bound of Get is the next version unless that wraps. -/
theorem lt_next_version {v w : Version} (hw : w ≠ maxVersion) : v < w + 1 ↔ v ≤ w := by
  have hlt : w.val + 1 < 2 ^ 64 := by
    have : w.val ≠ 2 ^ 64 - 1 := fun h => hw (Fin.ext h)
    omega
  have hval : (w + 1).val = w.val + 1 := by
    rw [Fin.val_add]
    exact Nat.mod_eq_of_lt hlt
  rw [Fin.lt_def, Fin.le_def, hval, Nat.lt_succ_iff]

theorem getLoop_typed (k : Bytes) (as : List (Version × Slice)) :
    getLoop t k (as.map (fun q => .ok ⟨(MvccKey.version k q.1).encode, q.2⟩)) =
      (as.find? (fun q => t.isVisible q.1)).elim (.ok none)
        (fun q => decodeVersionedValue q.2) := by
  induction as with
  | nil => rfl
  | cons q as ih =>
    simp only [List.map_cons, getLoop, decode_encode, MvccKey.versionField, List.find?_cons]
    by_cases hv : t.isVisible q.1 = true
    · simp [hv]
    · simpa [hv] using ih

/-- Get returns what the snapshot reads, unless it has the last version. -/
theorem get_spec (hs : Encoded s) (htag : Tagged s) (hmax : t.version ≠ maxVersion) (k : Bytes) :
    ∃ r, Reads s t k r ∧ (MVCCTransaction.get t k).run (orderedEngine n) s = (.ok r, s) := by
  obtain ⟨as, hscan, hmem, hsort⟩ := scan_versions hs k 0 (t.version + 1)
  have hin : ∀ v x, recordAt s (.version k v) = some x → t.isVisible v = true → (v, x) ∈ as := by
    intro v x hx hv
    exact (hmem v x).mpr ⟨⟨Fin.zero_le v, (lt_next_version hmax).mpr (visible_le hv)⟩, hx⟩
  have hrun : (MVCCTransaction.get t k).run (orderedEngine n) s =
      ((as.reverse.find? (fun q => t.isVisible q.1)).elim (.ok none)
        (fun q => decodeVersionedValue q.2), s) := by
    simp only [MVCCTransaction.get, Prog.perform, Prog.bind_eq, Prog.bind_call, Prog.bind_done,
      Prog.run_call, orderedEngine, versionedKey, hscan, ← List.map_reverse, getLoop_typed,
      Prog.run_ofExcept]
  rw [hrun]
  cases hfind : as.reverse.find? (fun q => t.isVisible q.1) with
  | none =>
    refine ⟨none, .absent ?_, rfl⟩
    intro v hv
    obtain ⟨x, hx⟩ := Option.isSome_iff_exists.mp hv
    cases hvis : t.isVisible v with
    | false => rfl
    | true =>
      have := List.find?_eq_none.mp hfind (v, x) (List.mem_reverse.mpr (hin v x hx hvis))
      exact absurd hvis this
  | some q =>
    obtain ⟨hvis, newer, older, hsplit, hskip⟩ := List.find?_eq_some_iff_append.mp hfind
    have hq := (hmem q.1 q.2).mp (List.mem_reverse.mp (List.mem_of_find?_eq_some hfind))
    obtain ⟨r, hr⟩ := htag k q.1 q.2 hq.2
    refine ⟨r, .newest hq.2 hvis hr ?_, by rw [Option.elim_some, hr]⟩
    intro w hw hwvis
    obtain ⟨x, hx⟩ := Option.isSome_iff_exists.mp hw
    have hwin := List.mem_reverse.mpr (hin w x hx hwvis)
    have hdesc := List.pairwise_reverse.mpr hsort
    rw [hsplit] at hwin hdesc
    -- the newer entries were skipped as invisible
    rcases List.mem_append.mp hwin with hin | hin
    · simpa [hwvis] using hskip _ hin
    · rcases List.mem_cons.mp hin with heq | hold
      · rw [← heq]
      · exact le_of_lt ((List.pairwise_cons.mp (List.pairwise_append.mp hdesc).2.1).1 _ hold)

def valueOf (x : Slice) : Slice := (decodeVersionedValue x).toOption.join

def lastRead (t : TransactionState) (as : List ((Bytes × Version) × Slice)) (k : Bytes) : Slice :=
  as.foldl (fun r q => if q.1.1 = k ∧ t.isVisible q.1.2 = true then valueOf q.2 else r) none

theorem lastRead_append (as : List ((Bytes × Version) × Slice)) (q : (Bytes × Version) × Slice)
    (k : Bytes) :
    lastRead t (as ++ [q]) k =
      if q.1.1 = k ∧ t.isVisible q.1.2 = true then valueOf q.2 else lastRead t as k := by
  simp [lastRead, List.foldl_append]

theorem lastRead_none {as : List ((Bytes × Version) × Slice)} {k : Bytes}
    (h : ∀ q ∈ as, q.1.1 ≠ k) : lastRead t as k = none := by
  induction as using List.reverseRecOn with
  | nil => rfl
  | append_singleton as q ih =>
    rw [lastRead_append, if_neg (fun hq => h q (by simp) hq.1)]
    exact ih (fun r hr => h r (by simp [hr]))

/-- What holds of the loop's variables after the entries `as`: the collected
entries are those of the keys before the current one. -/
structure Collected (t : TransactionState) (as : List ((Bytes × Version) × Slice))
    (st : ScanState) : Prop where
  sorted : st.entries.Pairwise (fun a b => a.key < b.key)
  before : ∀ e ∈ st.entries, e.key < st.currentKey
  mem : ∀ e, e ∈ st.entries ↔
    e.key ≠ st.currentKey ∧ e.value.isSome ∧ lastRead t as e.key = e.value
  upTo : ∀ q ∈ as, q.1.1 ≤ st.currentKey
  value : st.currentValue = lastRead t as st.currentKey
  visible : st.currentVisible = st.currentValue.isSome

theorem collected_start (t : TransactionState) : Collected t [] ⟨[], [], none, false⟩ := by
  refine ⟨.nil, by simp, ?_, by simp, rfl, rfl⟩
  intro e
  refine iff_of_false (by simp) ?_
  intro h
  have hnone : none = e.value := h.2.2
  rw [← hnone] at h
  cases h.2.1

/-- The entries at the end of the loop are those of the keys that have a value. -/
theorem Collected.flush_mem {as : List ((Bytes × Version) × Slice)} {st : ScanState}
    (h : Collected t as st) (e : Entry) :
    e ∈ st.flush ↔ e.value.isSome ∧ lastRead t as e.key = e.value := by
  have hcur := h.value
  unfold ScanState.flush
  rw [h.visible]
  cases hv : st.currentValue with
  | none =>
    rw [hv] at hcur
    rw [Option.isSome_none, if_neg Bool.false_ne_true, h.mem]
    constructor
    · intro he
      exact he.2
    · intro he
      refine ⟨?_, he⟩
      intro hk
      rw [hk, ← hcur] at he
      rw [← he.2] at he
      cases he.1
  | some v =>
    rw [hv] at hcur
    rw [Option.isSome_some, if_pos rfl, List.mem_append, List.mem_singleton, h.mem]
    constructor
    · intro he
      rcases he with he | he
      · exact he.2
      · rw [he]
        exact ⟨rfl, hcur.symm⟩
    · intro he
      by_cases hk : e.key = st.currentKey
      · rw [hk, ← hcur] at he
        exact .inr (by rw [← hk, he.2])
      · exact .inl ⟨hk, he⟩

theorem Collected.flush_sorted {as : List ((Bytes × Version) × Slice)} {st : ScanState}
    (h : Collected t as st) : st.flush.Pairwise (fun a b => a.key < b.key) := by
  unfold ScanState.flush
  split
  · rw [List.pairwise_append]
    refine ⟨h.sorted, List.pairwise_singleton _ _, ?_⟩
    intro a ha b hb
    rw [List.mem_singleton.mp hb]
    exact h.before a ha
  · exact h.sorted

/-- Turning to a key at or after the current one keeps what was collected. -/
theorem Collected.turn {as : List ((Bytes × Version) × Slice)} {st : ScanState}
    (h : Collected t as st) {k : Bytes} (hk : st.currentKey ≤ k) :
    Collected t as (st.turn k) ∧ (st.turn k).currentKey = k := by
  unfold ScanState.turn
  by_cases heq : k = st.currentKey
  · rw [if_neg (not_not.mpr heq)]
    exact ⟨h, heq.symm⟩
  · rw [if_pos heq]
    have hlt : st.currentKey < k := lt_of_le_of_ne hk (Ne.symm heq)
    have hnone : lastRead t as k = none :=
      lastRead_none (fun q hq => ne_of_lt (lt_of_le_of_lt (h.upTo q hq) hlt))
    refine ⟨⟨h.flush_sorted, ?_, ?_, ?_, hnone.symm, rfl⟩, rfl⟩
    · intro e he
      unfold ScanState.flush at he
      split at he
      · rcases List.mem_append.mp he with he | he
        · exact lt_trans (h.before e he) hlt
        · rw [List.mem_singleton.mp he]
          exact hlt
      · exact lt_trans (h.before e he) hlt
    · intro e
      rw [h.flush_mem]
      constructor
      · intro he
        refine ⟨?_, he⟩
        intro hek
        have hval := he.2
        rw [hek, hnone] at hval
        rw [← hval] at he
        cases he.1
      · intro he
        exact he.2
    · intro q hq
      exact le_of_lt (lt_of_le_of_lt (h.upTo q hq) hlt)

/-- An entry of the current key replaces the value when it is visible. -/
theorem Collected.skip {as : List ((Bytes × Version) × Slice)} {st : ScanState}
    (h : Collected t as st) {q : (Bytes × Version) × Slice} (hq : q.1.1 = st.currentKey)
    (hvis : t.isVisible q.1.2 = false) : Collected t (as ++ [q]) st := by
  have hsame : ∀ k, lastRead t (as ++ [q]) k = lastRead t as k := by
    intro k
    rw [lastRead_append, if_neg]
    intro hc
    rw [hvis] at hc
    cases hc.2
  refine ⟨h.sorted, h.before, ?_, ?_, ?_, h.visible⟩
  · intro e
    rw [hsame]
    exact h.mem e
  · intro r hr
    rcases List.mem_append.mp hr with hr | hr
    · exact h.upTo r hr
    · rw [List.mem_singleton.mp hr, hq]
  · rw [hsame]
    exact h.value

theorem Collected.take {as : List ((Bytes × Version) × Slice)} {st : ScanState}
    (h : Collected t as st) {q : (Bytes × Version) × Slice} (hq : q.1.1 = st.currentKey)
    (hvis : t.isVisible q.1.2 = true) {r : Slice} (hr : decodeVersionedValue q.2 = .ok r) :
    Collected t (as ++ [q]) { st with currentValue := r, currentVisible := r.isSome } := by
  have hval : valueOf q.2 = r := by
    unfold valueOf
    rw [hr]
    rfl
  refine ⟨h.sorted, h.before, ?_, ?_, ?_, rfl⟩
  · intro e
    rw [h.mem]
    apply and_congr_right
    intro he
    rw [lastRead_append, if_neg (fun hc => he (hc.1.symm.trans hq))]
  · intro p hp
    rcases List.mem_append.mp hp with hp | hp
    · exact h.upTo p hp
    · rw [List.mem_singleton.mp hp, hq]
  · rw [lastRead_append, if_pos ⟨hq, hvis⟩, hval]

/-- The loop of ScanPrefix over the records in their order. -/
theorem scanLoop_typed {as bs : List ((Bytes × Version) × Slice)} {st : ScanState}
    (h : Collected t as st) (hge : ∀ q ∈ bs, st.currentKey ≤ q.1.1)
    (hsort : bs.Pairwise (fun q r => q.1.1 ≤ r.1.1))
    (htag : ∀ q ∈ bs, ∃ r, decodeVersionedValue q.2 = .ok r) :
    ∃ st', scanLoop t st (bs.map (fun q => .ok ⟨(MvccKey.version q.1.1 q.1.2).encode, q.2⟩)) =
      .ok st' ∧ Collected t (as ++ bs) st' := by
  induction bs generalizing as st with
  | nil => exact ⟨st, rfl, by rwa [List.append_nil]⟩
  | cons q bs ih =>
    obtain ⟨hturn, hcur⟩ := h.turn (hge q List.mem_cons_self)
    obtain ⟨hq, hsort'⟩ := List.pairwise_cons.mp hsort
    obtain ⟨r, hr⟩ := htag q List.mem_cons_self
    have htag' : ∀ p ∈ bs, ∃ r, decodeVersionedValue p.2 = .ok r :=
      fun p hp => htag p (List.mem_cons_of_mem _ hp)
    rw [List.append_cons]
    simp only [List.map_cons, scanLoop, decode_encode, MvccKey.versionField, MvccKey.rawKey]
    by_cases hvis : t.isVisible q.1.2 = true
    · simp only [hvis, hr]
      exact ih (hturn.take hcur.symm hvis hr) (by rw [hcur]; exact hq) hsort' htag'
    · rw [Bool.not_eq_true] at hvis
      simp only [hvis]
      exact ih (hturn.skip hcur.symm hvis) (by rw [hcur]; exact hq) hsort' htag'

/-- In a list sorted by key and version the last visible entry of a key is its
newest. -/
theorem lastRead_newest {as : List ((Bytes × Version) × Slice)}
    (hsort : as.Pairwise (fun q r => q.1.1 < r.1.1 ∨ q.1.1 = r.1.1 ∧ q.1.2 < r.1.2)) (k : Bytes) :
    (lastRead t as k = none ∧ ∀ q ∈ as, q.1.1 = k → t.isVisible q.1.2 = false) ∨
    ∃ v x, ((k, v), x) ∈ as ∧ t.isVisible v = true ∧ lastRead t as k = valueOf x ∧
      ∀ q ∈ as, q.1.1 = k → t.isVisible q.1.2 = true → q.1.2 ≤ v := by
  induction as using List.reverseRecOn with
  | nil => exact .inl ⟨rfl, fun q hq => absurd hq (by simp)⟩
  | append_singleton as q ih =>
    obtain ⟨hsort', -, hlast⟩ := List.pairwise_append.mp hsort
    rw [lastRead_append]
    by_cases hq : q.1.1 = k ∧ t.isVisible q.1.2 = true
    · rw [if_pos hq]
      obtain ⟨rfl, hvis⟩ := hq
      refine .inr ⟨q.1.2, q.2, by simp, hvis, rfl, ?_⟩
      intro r hr hk _
      rcases List.mem_append.mp hr with hr | hr
      · rcases hlast r hr q (by simp) with hlt | ⟨-, hlt⟩
        · exact absurd hk (ne_of_lt hlt)
        · exact le_of_lt hlt
      · rw [List.mem_singleton.mp hr]
    · rw [if_neg hq]
      rcases ih hsort' with ⟨hnone, hall⟩ | ⟨v, x, hin, hvis, hval, hall⟩
      · refine .inl ⟨hnone, ?_⟩
        intro r hr hk
        rcases List.mem_append.mp hr with hr | hr
        · exact hall r hr hk
        · rw [List.mem_singleton.mp hr] at hk ⊢
          exact Bool.eq_false_iff.mpr (fun hv => hq ⟨hk, hv⟩)
      · refine .inr ⟨v, x, by simp [hin], hvis, hval, ?_⟩
        intro r hr hk hrv
        rcases List.mem_append.mp hr with hr | hr
        · exact hall r hr hk hrv
        · rw [List.mem_singleton.mp hr] at hk hrv
          exact absurd ⟨hk, hrv⟩ hq

/-- ScanPrefix agrees with the newest visible versions of the keys. -/
theorem scanPrefix_spec (hs : Encoded s) (htag : Tagged s) (t : TransactionState) (p : Bytes) :
    ∃ es : List Entry,
      (MVCCTransaction.scanPrefix t p).run (orderedEngine n) s = (.ok es, s) ∧
      es.Pairwise (fun a b => a.key < b.key) ∧
      ∀ e, e ∈ es ↔ p <+: e.key ∧ e.value.isSome ∧ Reads s t e.key e.value := by
  obtain ⟨as, hscan, hmem, hsort⟩ := scan_versioned hs p
  have hdec : ∀ q ∈ as, ∃ r, decodeVersionedValue q.2 = .ok r := by
    intro q hq
    exact htag q.1.1 q.1.2 q.2 ((hmem _ _ _).mp hq).2
  obtain ⟨st, hloop, hcol⟩ :=
    scanLoop_typed (collected_start t) (fun q _ => nil_le _) (hsort.imp (by
    intro q r h
    rcases h with h | h
    · exact le_of_lt h
    · exact le_of_eq h.1)) hdec
  have hreads : ∀ k, p <+: k → Reads s t k (lastRead t as k) := by
    intro k hk
    rcases lastRead_newest hsort k with ⟨hnone, hall⟩ | ⟨v, x, hin, hvis, hval, hall⟩
    · rw [hnone]
      refine .absent ?_
      intro v hv
      obtain ⟨x, hx⟩ := Option.isSome_iff_exists.mp hv
      exact hall ((k, v), x) ((hmem k v x).mpr ⟨hk, hx⟩) rfl
    · obtain ⟨r, hr⟩ := hdec _ hin
      rw [hval]
      refine .newest ((hmem k v x).mp hin).2 hvis ?_ ?_
      · rw [valueOf, hr]
        rfl
      · intro w hw hwvis
        obtain ⟨y, hy⟩ := Option.isSome_iff_exists.mp hw
        exact hall ((k, w), y) ((hmem k w y).mpr ⟨hk, hy⟩) rfl hwvis
  refine ⟨st.flush, ?_, hcol.flush_sorted, ?_⟩
  · simp [MVCCTransaction.scanPrefix, Prog.perform, orderedEngine, hscan, hloop]
  · intro e
    rw [hcol.flush_mem, List.nil_append]
    constructor
    · intro he
      have hk : p <+: e.key := by
        by_contra hno
        have hnone : lastRead t as e.key = none := by
          apply lastRead_none
          intro q hq heq
          exact hno (heq ▸ ((hmem _ _ _).mp hq).1)
        rw [← he.2, hnone] at he
        cases he.1
      exact ⟨hk, he.1, he.2 ▸ hreads e.key hk⟩
    · intro he
      exact ⟨he.2.1, (hreads e.key he.1).unique he.2.2⟩

end SpaceDB.Proofs
