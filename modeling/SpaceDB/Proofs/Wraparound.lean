import SpaceDB.Proofs.SnapshotIsolation

namespace SpaceDB.Proofs
open Lib Storage

variable {n : NilValue} {s s' : Sys} {t u : Nat} {x y : Txn}

def Txn.after (old : Sys) (x : Txn) : Txn := { x with seen := old.commits ++ x.seen }

/-- The system `s` with the handles and commits of `old` before its own. -/
def Sys.after (old s : Sys) : Sys :=
  { s with
    txns := fun t => if t < old.begins then old.txns t else (s.txns t).map (Txn.after old)
    commits := old.commits ++ s.commits }

theorem after_txns (old s : Sys) (t : Nat) : (Sys.after old s).txns t =
    if t < old.begins then old.txns t else (s.txns t).map (Txn.after old) := rfl

theorem after_live {old : Sys} (ht : old.begins ≤ t) :
    (Sys.after old s).live t = (s.live t).map (Txn.after old) := by
  unfold Sys.live
  rw [after_txns, if_neg (not_lt.mpr ht)]
  cases s.txns t with
  | none => rfl
  | some x => by_cases hx : x.status = .live <;> simp [Option.filter_some, Txn.after, hx]

theorem after_update {old : Sys} (ht : old.begins ≤ t) (f : Txn → Txn)
    (hf : ∀ x, f (Txn.after old x) = Txn.after old (f x)) :
    (Sys.after old s).update t f = Sys.after old (s.update t f) := by
  have htxns : ((Sys.after old s).update t f).txns = (Sys.after old (s.update t f)).txns := by
    funext u
    simp only [Sys.update, after_txns, Function.update_apply]
    by_cases hu : u = t
    · subst hu
      rw [if_pos rfl, if_neg (not_lt.mpr ht), if_neg (not_lt.mpr ht), if_pos rfl,
        Option.map_map, Option.map_map]
      congr 1
      funext x
      exact hf x
    · rw [if_neg hu, if_neg hu]
  exact congrArg (fun txns => ({ Sys.after old s with txns := txns } : Sys)) htxns

theorem after_begin {old : Sys} (hb : old.begins ≤ s.begins) (st : TransactionState) :
    Function.update (Sys.after old s).txns s.begins
        (some ⟨st, .live, [], old.commits ++ s.commits⟩) =
      fun t => if t < old.begins then old.txns t else
        (Function.update s.txns s.begins (some ⟨st, .live, [], s.commits⟩) t).map
          (Txn.after old) := by
  funext t
  simp only [Function.update_apply, after_txns]
  by_cases ht : t = s.begins
  · subst ht
    rw [if_pos rfl, if_neg (not_lt.mpr hb), if_pos rfl]
    rfl
  · rw [if_neg ht, if_neg ht]

/-- Bookkeeping after older handles. -/
theorem after_record {old : Sys} {o : Op} (hb : old.begins ≤ s.begins)
    (ho : ∀ t, handle o = some t → old.begins ≤ t) (r : Except Error Answer) (store : Store) :
    (Sys.after old s).record o r store = Sys.after old (s.record o r store) := by
  -- the bookkeeping of one handle commutes with the older ones
  have hup : ∀ {t} (f : Txn → Txn), handle o = some t →
      (∀ x, f (Txn.after old x) = Txn.after old (f x)) →
      ({ Sys.after old s with store := store } : Sys).update t f =
        Sys.after old (({ s with store := store } : Sys).update t f) :=
    fun f ht hf => after_update (s := { s with store := store }) (ho _ ht) f hf
  cases r with
  | error e => cases o <;> rfl
  | ok a =>
    cases o with
    | begin =>
      cases a with
      | handle st =>
        exact congrArg (fun txns => (⟨store, s.begins + 1, txns, old.commits ++ s.commits⟩ : Sys))
          (after_begin hb st)
      | value v => rfl
      | entries es => rfl
      | unit => rfl
    | get t k => rfl
    | scanPrefix t p => rfl
    | set t k v => exact hup _ rfl (fun _ => rfl)
    | delete t k => exact hup _ rfl (fun _ => rfl)
    | commit t =>
      have h := hup (fun x => { x with status := .committed }) rfl (fun _ => rfl)
      simp only [Sys.record, h]
      simp only [Sys.after, Sys.update, List.append_assoc]
    | rollback t => exact hup _ rfl (fun _ => rfl)

/-- What happens through younger handles does not depend on the older ones. -/
theorem step_after_eq {old : Sys} {o : Op} (hb : old.begins ≤ s.begins)
    (ho : ∀ t, handle o = some t → old.begins ≤ t) :
    (Sys.after old s).step n (.op o) =
    (s.step n (.op o)).map (fun q => (Sys.after old q.1, q.2)) := by
  have hp : (Sys.after old s).program o = s.program o := by
    cases o with
    | begin => rfl
    | get t k => simp [Sys.program, after_live (ho t rfl), Function.comp_def, Txn.after]
    | scanPrefix t p => simp [Sys.program, after_live (ho t rfl), Function.comp_def, Txn.after]
    | set t k v => simp [Sys.program, after_live (ho t rfl), Function.comp_def, Txn.after]
    | delete t k => simp [Sys.program, after_live (ho t rfl), Function.comp_def, Txn.after]
    | commit t => simp [Sys.program, after_live (ho t rfl), Function.comp_def, Txn.after]
    | rollback t => simp [Sys.program, after_live (ho t rfl), Function.comp_def, Txn.after]
  simp only [Sys.step, hp]
  cases s.program o with
  | none => rfl
  | some p =>
    simp only [Option.map_some, after_record hb ho]
    rfl

theorem step_after {old : Sys} {o : Op} {r : Result} (hb : old.begins ≤ s.begins)
    (ho : ∀ t, handle o = some t → old.begins ≤ t) (h : s.step n (.op o) = some (s', r)) :
    (Sys.after old s).step n (.op o) = some (Sys.after old s', r) := by
  rw [step_after_eq hb ho, h]
  rfl

/-- A run of younger handles does not depend on the older ones. -/
theorem run_after (old : Sys) {ops : List Op} {results : List Result} (hb : old.begins ≤ s.begins)
    (ho : ∀ o ∈ ops, ∀ t, handle o = some t → old.begins ≤ t)
    (h : s.run n (ops.map .op) = some (s', results)) :
    (Sys.after old s).run n (ops.map .op) = some (Sys.after old s', results) := by
  induction ops generalizing s results with
  | nil =>
    cases h
    rfl
  | cons o ops ih =>
    obtain ⟨m, r, rs, hstep, hrun, rfl⟩ := run_cons.mp h
    refine run_cons.mpr ⟨_, r, rs, step_after hb (ho o List.mem_cons_self) hstep, ?_, rfl⟩
    exact ih (le_trans hb (step_begins_le hstep)) (fun o' h' => ho o' (List.mem_cons_of_mem _ h'))
      hrun

/-- Data that no transaction has open: no marker and no write record. -/
structure Settled (data : Store) : Prop where
  encoded : Encoded data
  unmarked : ∀ v, recordAt data (.txnActive v) = none
  unlisted : ∀ v k, recordAt data (.txnWrite v k) = none

theorem settled_empty : Settled .empty := ⟨encoded_empty, fun _ => rfl, fun _ _ => rfl⟩

theorem Settled.insert {data : Store} (h : Settled data) (k : Bytes) (v : Version) (value : Slice) :
    Settled (data.insert (MvccKey.version k v).encode value) := by
  refine ⟨h.encoded.insert _ _, ?_, ?_⟩
  · intro w
    rw [recordAt_insert, if_neg (by simp), h.unmarked]
  · intro w j
    rw [recordAt_insert, if_neg (by simp), h.unlisted]

/-- A system that holds some data and the counter, after `m` Begins. -/
structure Idle (data : Store) (m : Nat) (s : Sys) : Prop where
  encoded : Encoded s.store
  holds : ∀ key, key ≠ .nextVersion → recordAt s.store key = recordAt data key
  counter : recordAt s.store .nextVersion =
    if m = 0 then none else some (some (encodeVersion (Fin.ofNat (2 ^ 64) (m + 1))))
  begins : s.begins = m
  bound : ∀ {t x}, s.txns t = some x → t < m
  early : ∀ u ∈ s.commits, u < m

theorem idle_init : Idle .empty 0 Sys.init := by
  refine ⟨encoded_empty, fun _ _ => rfl, rfl, rfl, ?_, ?_⟩
  · intro t x h
    cases h
  · intro u h
    cases h

section Idle

variable {data : Store} {m : Nat}

theorem Idle.next (h : Idle data m s) : NextIs s.store (Fin.ofNat (2 ^ 64) (m + 1)) := by
  unfold NextIs
  rw [h.counter]
  by_cases hm : m = 0
  · subst hm
    rfl
  · rw [if_neg hm]
    simp only [Option.join_some, loadNext, decodeVersion_encode]
    rfl

theorem ofNat_succ (m : Nat) : Fin.ofNat (2 ^ 64) m + 1 = Fin.ofNat (2 ^ 64) (m + 1) := by
  apply Fin.ext
  rw [Fin.val_add]
  change (m % 2 ^ 64 + 1 % 2 ^ 64) % 2 ^ 64 = (m + 1) % 2 ^ 64
  omega

/-- The next Begin gives out the version after `m`. -/
theorem Idle.opens (h : Idle data m s) (n : NilValue) : ∃ active,
    s.step n (.op .begin) = some (opened n s ⟨Fin.ofNat (2 ^ 64) (m + 1), active⟩,
      some (.ok (.handle ⟨Fin.ofNat (2 ^ 64) (m + 1), active⟩))) ∧
    (opened n s ⟨Fin.ofNat (2 ^ 64) (m + 1), active⟩).live m =
      some ⟨⟨Fin.ofNat (2 ^ 64) (m + 1), active⟩, .live, [], s.commits⟩ := by
  obtain ⟨active, -, hbegin⟩ := step_begin (n := n) h.encoded h.next
  refine ⟨active, hbegin, ?_⟩
  rw [live_iff, ← h.begins]
  exact ⟨Function.update_self _ _ _, rfl⟩

/-- The end of a transaction that has written nothing deletes its marker, and
otherwise nothing that is there. -/
theorem Idle.ended {keys : List MvccKey} {active : List Version} (h : Idle data m s)
    (hstore : s'.store = eraseAll keys (begun n (Fin.ofNat (2 ^ 64) (m + 1)) s.store))
    (hbegins : s'.begins = s.begins + 1)
    (htxns : s'.txns = Function.update
      (opened n s ⟨Fin.ofNat (2 ^ 64) (m + 1), active⟩).txns m (some x))
    (hcommits : ∀ u ∈ s'.commits, u ∈ s.commits ∨ u = m)
    (hmark : .txnActive (Fin.ofNat (2 ^ 64) (m + 1)) ∈ keys)
    (hkeys : ∀ key ∈ keys, key ≠ .nextVersion ∧ recordAt data key = none) :
    Idle data (m + 1) s' := by
  refine ⟨?_, ?_, ?_, hbegins.trans (congrArg (· + 1) h.begins), ?_, ?_⟩
  · rw [hstore]
    exact (h.encoded.begun _).eraseAll _
  · intro key hkey
    rw [hstore, recordAt_eraseAll]
    by_cases hin : key ∈ keys
    · rw [if_pos hin, (hkeys key hin).2]
    · rw [if_neg hin, recordAt_begun, if_neg (ne_of_mem_of_not_mem hmark hin).symm, if_neg hkey,
        h.holds key hkey]
  · rw [hstore, recordAt_eraseAll, if_neg (fun hin => (hkeys _ hin).1 rfl), recordAt_begun,
      if_neg (by simp), if_pos rfl, if_neg (Nat.succ_ne_zero m), ofNat_succ]
  · intro t y hy
    rw [htxns, Function.update_apply] at hy
    by_cases ht : t = m
    · omega
    · rw [if_neg ht] at hy
      change Function.update _ _ _ _ = _ at hy
      rw [Function.update_apply, h.begins, if_neg ht] at hy
      have := h.bound hy
      omega
  · intro u hu
    rcases hcommits u hu with hu | rfl
    · have := h.early u hu
      omega
    · omega

/-- Begin and Commit of an empty transaction. -/
theorem Idle.round (h : Idle data m s) (hd : Settled data) :
    ∃ s' results, s.run n ([.begin, .commit m].map .op) = some (s', results) ∧
      Idle data (m + 1) s' := by
  obtain ⟨active, hbegin, hlive⟩ := h.opens n
  obtain ⟨ks, -, hcommit, -⟩ := commit_spec (n := n) (h.encoded.begun (n := n)
    (Fin.ofNat (2 ^ 64) (m + 1))) ⟨Fin.ofNat (2 ^ 64) (m + 1), active⟩
  have hend := step_op (program_commit hlive) hcommit
  refine ⟨_, _, run_cons.mpr ⟨_, _, _, hbegin, run_cons.mpr ⟨_, _, _, hend, rfl, rfl⟩, rfl⟩, ?_⟩
  apply h.ended rfl rfl (record_commit_txns (live_iff.mp hlive).1 _)
  · intro u hu
    rcases List.mem_append.mp hu with hu | hu
    · exact .inl hu
    · exact .inr (List.mem_singleton.mp hu)
  · exact mem_commitKeys.mpr (.inr rfl)
  · intro key hkey
    rcases mem_commitKeys.mp hkey with ⟨k, -, rfl⟩ | rfl
    · exact ⟨by simp, hd.unlisted _ k⟩
    · exact ⟨by simp, hd.unmarked _⟩

/-- Begin and Rollback of an empty transaction. -/
theorem Idle.rollback_round (h : Idle data m s) (hd : Settled data) (n : NilValue) :
    ∃ s₁ s' st, s.step n (.op .begin) = some (s₁, some (.ok (.handle st))) ∧
      s₁.step n (.op (.rollback m)) = some (s', some (.ok .unit)) ∧ Idle data (m + 1) s' ∧
      ∀ t x, s'.txns t = some x → x.status = .rolledBack ∨ s.txns t = some x := by
  obtain ⟨active, hbegin, hlive⟩ := h.opens n
  obtain ⟨ks, hks, hrollback, -⟩ := rollback_spec (n := n) (h.encoded.begun (n := n)
    (Fin.ofNat (2 ^ 64) (m + 1))) ⟨Fin.ofNat (2 ^ 64) (m + 1), active⟩
  have hend := step_op (program_rollback hlive) hrollback
  have htxns := record_rollback_txns (live_iff.mp hlive).1
    (eraseAll (rollbackKeys (Fin.ofNat (2 ^ 64) (m + 1)) ks)
      (begun n (Fin.ofNat (2 ^ 64) (m + 1)) s.store))
  have hothers :
      ∀ t x, ((opened n s ⟨Fin.ofNat (2 ^ 64) (m + 1), active⟩).record (.rollback m) (.ok .unit)
      (eraseAll (rollbackKeys (Fin.ofNat (2 ^ 64) (m + 1)) ks)
        (begun n (Fin.ofNat (2 ^ 64) (m + 1)) s.store))).txns t = some x →
      x.status = .rolledBack ∨ s.txns t = some x := by
    intro t x hx
    rw [htxns] at hx
    by_cases ht : t = m
    · rw [ht, Function.update_self] at hx
      cases hx
      exact .inl rfl
    · rw [Function.update_of_ne ht] at hx
      exact .inr ((Function.update_of_ne (h.begins ▸ ht) _ _).symm.trans hx)
  refine ⟨_, _, _, hbegin, hend, ?_, hothers⟩
  apply h.ended rfl rfl htxns
  · exact fun u hu => .inl hu
  · exact mem_rollbackKeys.mpr (.inr rfl)
  · intro key hkey
    rcases mem_rollbackKeys.mp hkey with ⟨k, hk, -⟩ | rfl
    · -- there is no write record to go by
      have hlisted := (hks.2 k).mp hk
      rw [recordAt_begun, if_neg (by simp), if_neg (by simp), h.holds _ (by simp),
        hd.unlisted] at hlisted
      cases hlisted
    · exact ⟨by simp, hd.unmarked _⟩

def rounds (a m : Nat) : List Op := (List.range m).flatMap (fun i => [.begin, .commit (a + i)])

/-- Transactions without writes only count up. -/
theorem Idle.rounds {a : Nat} (h : Idle data a s) (hd : Settled data) (n : NilValue) (m : Nat) :
    ∃ s' results, s.run n ((rounds a m).map .op) = some (s', results) ∧ Idle data (a + m) s' := by
  induction m with
  | zero => exact ⟨s, [], rfl, h⟩
  | succ m ih =>
    obtain ⟨s', results, hrun, hidle⟩ := ih
    obtain ⟨s'', results', hrun', hidle'⟩ := hidle.round (n := n) hd
    refine ⟨s'', results ++ results', ?_, hidle'⟩
    have hsplit : Proofs.rounds a (m + 1) = Proofs.rounds a m ++ [.begin, .commit (a + m)] := by
      simp [Proofs.rounds, List.range_succ]
    rw [hsplit, List.map_append]
    exact run_append.mpr ⟨s', _, _, hrun, hrun', rfl⟩

def counterStore (data : Store) (next : Version) : Store :=
  data.insert (MvccKey.nextVersion).encode (some (encodeVersion next))

def resumed (data : Store) (m : Nat) : Sys :=
  ⟨counterStore data (Fin.ofNat (2 ^ 64) (m + 1)), m, fun _ => none, []⟩

/-- A system that is idle is determined by its data and the counter. -/
theorem Idle.after_resumed {old : Sys} (h : Idle data m old) (hd : Settled data) (hm : m ≠ 0) :
    Sys.after old (resumed data m) = old := by
  have hstore : old.store = counterStore data (Fin.ofNat (2 ^ 64) (m + 1)) := by
    apply eq_of_recordAt h.encoded (hd.encoded.insert _ _)
    intro key
    rw [recordAt_insert]
    by_cases hkey : key = .nextVersion
    · rw [hkey, h.counter, if_neg hm, if_pos rfl]
    · rw [h.holds key hkey, if_neg hkey]
  have htxns : (fun t => if t < old.begins then old.txns t else none) = old.txns := by
    funext t
    split
    · rfl
    · next hge =>
      cases hx : old.txns t with
      | none => rfl
      | some x => exact absurd (h.begins ▸ h.bound hx) hge
  simp only [Sys.after, resumed, Option.map_none, List.append_nil, htxns, ← hstore]
  exact congrArg (fun b => (⟨old.store, b, old.txns, old.commits⟩ : Sys)) h.begins.symm

/-- A run that goes on after `m` such transactions can be computed from the
data and the counter alone. -/
theorem Idle.run_rounds {a : Nat} {s₀ : Sys} {first ops : List Op} {rs₀ results : List Result}
    (h₀ : Idle data a s₀) (hd : Settled data)
    (hfirst : Sys.init.run n (first.map .op) = some (s₀, rs₀)) (hm : a + m ≠ 0)
    (ho : ∀ o ∈ ops, ∀ t, handle o = some t → a + m ≤ t)
    (h : (resumed data (a + m)).run n (ops.map .op) = some (s, results)) :
    ∃ old rs, Idle data (a + m) old ∧
    Sys.init.run n ((first ++ (Proofs.rounds a m ++ ops)).map .op) =
      some (Sys.after old s, rs₀ ++ (rs ++ results)) := by
  obtain ⟨old, rs, hrun, hidle⟩ := h₀.rounds hd n m
  refine ⟨old, rs, hidle, ?_⟩
  have hafter := run_after old (le_of_eq hidle.begins)
    (fun o hmem t ht => hidle.begins ▸ ho o hmem t ht) h
  rw [hidle.after_resumed hd hm] at hafter
  rw [List.map_append, List.map_append]
  exact run_append.mpr ⟨s₀, rs₀, _, hfirst,
    run_append.mpr ⟨old, rs, results, hrun, hafter, rfl⟩, rfl⟩

/-- A first part of the run that leaves the data settled, by evaluation. -/
theorem idle_after (n : NilValue) (data : Store) (first : List Op) (commits : List Nat) {a : Nat}
    (ha : a ≠ 0) (hlt : a < 2 ^ 64)
    (hearly : ∀ u ∈ commits, u < a)
    (h : (Sys.init.run n (first.map .op)).map
        (fun q => (q.1.store.entries, q.1.begins, q.1.commits)) =
      some ((counterStore data (Fin.ofNat (2 ^ 64) (a + 1))).entries, a, commits)) :
    ∃ s rs, Sys.init.run n (first.map .op) = some (s, rs) ∧ Idle data a s := by
  obtain ⟨⟨s, rs⟩, hrun, heq⟩ := Option.map_eq_some_iff.mp h
  simp only [Prod.mk.injEq] at heq
  obtain ⟨hentries, hbegins, hcommits⟩ := heq
  have hstore : s.store = counterStore data (Fin.ofNat (2 ^ 64) (a + 1)) := OrderedMap.ext hentries
  have hbase : Base s := Reaches.base (n := n)
    ⟨_, _, fun st hst => reliable_of_plain (plain_ops first st hst), hrun⟩ (by omega)
  refine ⟨s, rs, hrun, hbase.encoded, ?_, ?_, hbegins, ?_, ?_⟩
  · intro key hkey
    rw [hstore, counterStore, recordAt_insert, if_neg hkey]
  · rw [hstore, counterStore, recordAt_insert, if_pos rfl, if_neg ha]
  · intro t x hx
    exact hbegins ▸ hbase.bound hx
  · intro u hu
    apply hearly
    exact hcommits ▸ hu

end Idle

/-- Such a run from the empty store and something observed in its last part,
by evaluation. -/
theorem rounds_observe {α : Type} (n : NilValue) (m : Nat) (hm : m ≠ 0) (ops : List Op)
    (ho : ∀ o ∈ ops, ∀ t, handle o = some t → m ≤ t) (f : Sys → List Result → Option α) (a : α)
    (h : ((resumed .empty m).run n (ops.map .op)).bind (fun q => f q.1 q.2) = some a) :
    ∃ old s rs results, Idle .empty m old ∧ Sys.init.run n ((rounds 0 m ++ ops).map .op) =
      some (Sys.after old s, rs ++ results) ∧ f s results = some a := by
  obtain ⟨q, hq, hf⟩ := Option.bind_eq_some_iff.mp h
  have hfirst : Sys.init.run n (([] : List Op).map .op) = some (Sys.init, []) := rfl
  obtain ⟨old, rs, hidle, hrun⟩ := idle_init.run_rounds (m := m) settled_empty hfirst (by omega)
    (by rwa [Nat.zero_add]) (by rw [Nat.zero_add]; exact hq)
  rw [Nat.zero_add] at hidle
  exact ⟨old, q.1, rs, q.2, hidle, hrun, hf⟩

theorem rounds_results (n : NilValue) (m : Nat) (hm : m ≠ 0) (ops : List Op)
    (ho : ∀ o ∈ ops, ∀ t, handle o = some t → m ≤ t) (results : List Result)
    (h : ((resumed .empty m).run n (ops.map .op)).map Prod.snd = some results) :
    ∃ s rs, Sys.init.run n ((rounds 0 m ++ ops).map .op) = some (s, rs ++ results) := by
  obtain ⟨old, s, rs, results', -, hrun, hr⟩ := rounds_observe n m hm ops ho
    (fun _ results => some results) results (by rw [← h, Option.map_eq_bind]; rfl)
  cases hr
  exact ⟨_, rs, hrun⟩

/-- A handle of the last part of the run, among those before it. -/
theorem Idle.after_entry {data : Store} {m : Nat} {old : Sys} (h : Idle data m old) (ht : m ≤ t)
    (hx : s.txns t = some x) : (Sys.after old s).txns t = some (Txn.after old x) := by
  rw [after_txns, h.begins, if_neg (not_lt.mpr ht), hx]
  rfl

theorem Idle.not_seen {data : Store} {m : Nat} {old : Sys} (h : Idle data m old) (ht : m ≤ t)
    (hx : t ∉ x.seen) : t ∉ (Txn.after old x).seen := by
  intro hin
  rcases List.mem_append.mp hin with hin | hin
  · have := h.early t hin
    omega
  · exact hx hin

end SpaceDB.Proofs
