import SpaceDB.Proofs.RunSteps
import SpaceDB.Proofs.Steps

namespace SpaceDB.Proofs
open Lib Storage

variable {n : NilValue} {s s' : Sys} {t u : Nat} {x y : Txn}

def Used (s : Sys) (v : Version) : Prop :=
  (∃ t x, s.txns t = some x ∧ x.state.version = v) ∨
    ∃ key : MvccKey, key ≠ .nextVersion ∧ key.versionField = v ∧ (recordAt s.store key).isSome

/-- What holds after every step, with or without faults. Versions are given out
in the order of the Begin calls, and the counter is ahead of every version in
use until it wraps, which takes 2^64 - 1 Begins. -/
structure Base (s : Sys) : Prop where
  encoded : Encoded s.store
  tagged : Tagged s.store
  bound : ∀ {t x}, s.txns t = some x → t < s.begins
  order : ∀ {t u x y}, s.txns t = some x → s.txns u = some y → t < u →
    x.state.version < y.state.version
  marker : ∀ {t x}, s.live t = some x → (recordAt s.store (.txnActive x.state.version)).isSome
  counter : s.begins < 2 ^ 64 - 1 → ∃ next, NextIs s.store next ∧ next.val ≤ s.begins + 1 ∧
    ∀ v, Used s v → v < next

theorem Base.handle_eq (h : Base s) (ht : s.txns t = some x) (hu : s.txns u = some y)
    (hv : x.state.version = y.state.version) : t = u := by
  rcases lt_trichotomy t u with hlt | heq | hlt
  · exact absurd hv (ne_of_lt (h.order ht hu hlt))
  · exact heq
  · exact absurd hv.symm (ne_of_lt (h.order hu ht hlt))

theorem Base.entry_eq (h : Base s) (ht : s.txns t = some x) (hu : s.txns u = some y)
    (hv : x.state.version = y.state.version) : x = y := by
  have := h.handle_eq ht hu hv
  subst this
  rw [ht] at hu
  exact Option.some.inj hu

/-- The last version, at which the bounds of Get wrap, needs 2^64 - 1 Begins. -/
theorem Base.ne_maxVersion (h : Base s) (hb : s.begins < 2 ^ 64 - 1) (ht : s.txns t = some x) :
    x.state.version ≠ maxVersion := by
  obtain ⟨next, -, hle, hused⟩ := h.counter hb
  intro hmax
  have hlt := Fin.lt_def.mp (hused _ (.inl ⟨t, x, ht, hmax⟩))
  have : maxVersion.val = 2 ^ 64 - 1 := rfl
  omega

theorem NextIs.unique {store : Store} {v w : Version} (h : NextIs store v) (h' : NextIs store w) :
    v = w := by
  unfold NextIs at h h'
  rw [h] at h'
  exact Except.ok.inj h'

theorem Base.next {next : Version} (h : Base s) (hb : s.begins < 2 ^ 64 - 1)
    (hn : NextIs s.store next) : next.val ≤ s.begins + 1 ∧ ∀ v, Used s v → v < next := by
  obtain ⟨next', hn', hall⟩ := h.counter hb
  rw [hn.unique hn']
  exact hall

theorem base_init : Base Sys.init := by
  refine ⟨encoded_empty, ?_, ?_, ?_, ?_, ?_⟩
  · intro k v x h
    cases h
  · intro t x h
    cases h
  · intro t u x y h
    cases h
  · intro t x h
    cases h
  · intro _
    refine ⟨1, rfl, le_refl _, ?_⟩
    intro v hv
    rcases hv with ⟨t, x, h, -⟩ | ⟨key, -, -, h⟩
    · cases h
    · cases h

def Frame (v : Version) (store store' : Store) : Prop :=
  ∀ key : MvccKey, key = .nextVersion ∨ key.versionField ≠ v →
    recordAt store' key = recordAt store key

theorem frame_eraseAll {v : Version} {keys : List MvccKey} (store : Store)
    (hkeys : ∀ key ∈ keys, key ≠ .nextVersion ∧ key.versionField = v) :
    Frame v store (eraseAll keys store) := by
  intro key hkey
  rw [recordAt_eraseAll, if_neg]
  intro hin
  rcases hkey with rfl | hne
  · exact (hkeys _ hin).1 rfl
  · exact hne (hkeys key hin).2

theorem frame_written (v : Version) (k : Bytes) (value : Slice) (store : Store) :
    Frame v store (written n v k value store) := by
  intro key hkey
  rw [recordAt_written, if_neg, if_neg]
  · rintro rfl
    exact hkey.elim (by simp) (fun hne => hne rfl)
  · rintro rfl
    exact hkey.elim (by simp) (fun hne => hne rfl)

theorem Tagged.eraseAll {store : Store} (h : Tagged store) (keys : List MvccKey) :
    Tagged (eraseAll keys store) := by
  intro k v x hx
  rw [recordAt_eraseAll] at hx
  split at hx
  · cases hx
  · exact h k v x hx

theorem Tagged.written {store : Store} (h : Tagged store) (v : Version) (k : Bytes)
    (value : Slice) : Tagged (written n v k value store) := by
  intro j w x hx
  rw [recordAt_written] at hx
  split at hx
  · cases hx
    exact ⟨value, decode_encodeSlice value⟩
  · rw [if_neg (by simp)] at hx
    exact h j w x hx

/-- A step that changes one handle and only records of its version. -/
theorem Base.own (x' : Txn) (h : Base s) (hx : s.txns t = some x) (henc : Encoded s'.store)
    (htag : Tagged s'.store) (hframe : Frame x.state.version s.store s'.store)
    (hb : s.begins ≤ s'.begins) (htxns : s'.txns = Function.update s.txns t (some x'))
    (hstate : x'.state = x.state)
    (hmark : x'.status = .live → (recordAt s'.store (.txnActive x.state.version)).isSome) :
    Base s' := by
  have hold : ∀ {u y'}, s'.txns u = some y' → u = t ∧ y' = x' ∨ u ≠ t ∧ s.txns u = some y' := by
    intro u y' hy'
    rw [htxns, Function.update_apply] at hy'
    by_cases hu : u = t
    · rw [if_pos hu] at hy'
      exact .inl ⟨hu, (Option.some.inj hy').symm⟩
    · rw [if_neg hu] at hy'
      exact .inr ⟨hu, hy'⟩
  have hentry : ∀ {u y'}, s'.txns u = some y' → ∃ y, s.txns u = some y ∧ y'.state = y.state := by
    intro u y' hy'
    rcases hold hy' with ⟨rfl, rfl⟩ | ⟨-, hy⟩
    · exact ⟨x, hx, hstate⟩
    · exact ⟨y', hy, rfl⟩
  refine ⟨henc, htag, ?_, ?_, ?_, ?_⟩
  · intro u y' hy'
    obtain ⟨y, hy, -⟩ := hentry hy'
    exact lt_of_lt_of_le (h.bound hy) hb
  · intro u w y' z' hy' hz' hlt
    obtain ⟨y, hy, hsy⟩ := hentry hy'
    obtain ⟨z, hz, hsz⟩ := hentry hz'
    rw [hsy, hsz]
    exact h.order hy hz hlt
  · intro u y' hl
    obtain ⟨hy', hst⟩ := live_iff.mp hl
    rcases hold hy' with ⟨rfl, rfl⟩ | ⟨hu, hy⟩
    · rw [hstate]
      exact hmark hst
    · have hne : y'.state.version ≠ x.state.version := fun heq => hu (h.handle_eq hy hx heq)
      rw [hframe (.txnActive y'.state.version) (.inr hne)]
      exact h.marker (live_iff.mpr ⟨hy, hst⟩)
  · intro hlt
    obtain ⟨next, hn, hle, hall⟩ := h.counter (lt_of_le_of_lt hb hlt)
    refine ⟨next, by unfold NextIs; rw [hframe _ (.inl rfl)]; exact hn, by omega, ?_⟩
    intro v hv
    rcases hv with ⟨u, y', hy', rfl⟩ | ⟨key, hkey, rfl, hrec⟩
    · obtain ⟨y, hy, hsy⟩ := hentry hy'
      exact hall _ (.inl ⟨u, y, hy, by rw [hsy]⟩)
    · by_cases hver : key.versionField = x.state.version
      · exact hall _ (.inl ⟨t, x, hx, hver.symm⟩)
      · rw [hframe key (.inr hver)] at hrec
        exact hall _ (.inr ⟨key, hkey, rfl, hrec⟩)

/-- The versions of lost handles stay used. -/
theorem Base.lose (h : Base s) : Base s.lose := by
  have hentry : ∀ {u y'}, s.lose.txns u = some y' → ∃ y, s.txns u = some y ∧
      y'.state = y.state := by
    intro u y' hy'
    obtain ⟨y, hy, rfl⟩ := lose_txns hy'
    refine ⟨y, hy, ?_⟩
    by_cases hl : y.status = .live <;> simp [hl]
  refine ⟨h.encoded, h.tagged, ?_, ?_, ?_, ?_⟩
  · intro u y' hy'
    obtain ⟨y, hy, -⟩ := hentry hy'
    exact h.bound hy
  · intro u w y' z' hy' hz' hlt
    obtain ⟨y, hy, hsy⟩ := hentry hy'
    obtain ⟨z, hz, hsz⟩ := hentry hz'
    rw [hsy, hsz]
    exact h.order hy hz hlt
  · intro u y' hl
    obtain ⟨hy', hst⟩ := live_iff.mp hl
    obtain ⟨y, -, rfl⟩ := lose_txns hy'
    by_cases hyl : y.status = .live <;> simp [hyl] at hst
  · intro hlt
    obtain ⟨next, hn, hle, hall⟩ := h.counter hlt
    refine ⟨next, hn, hle, ?_⟩
    intro v hv
    rcases hv with ⟨u, y', hy', rfl⟩ | hrec
    · obtain ⟨y, hy, hsy⟩ := hentry hy'
      exact hall _ (.inl ⟨u, y, hy, by rw [hsy]⟩)
    · exact hall _ (.inr hrec)

/-- A step that moves the counter past `next` and may set its marker. -/
theorem Base.advance {next : Version} (h : Base s) (hb : s.begins < 2 ^ 64 - 1)
    (hn : NextIs s.store next) (henc : Encoded s'.store)
    (hnext : recordAt s'.store .nextVersion = some (some (encodeVersion (next + 1))))
    (hrec : ∀ key, key ≠ .nextVersion → key ≠ .txnActive next →
      recordAt s'.store key = recordAt s.store key)
    (hbegins : s'.begins = s.begins + 1)
    (htxns : ∀ {u y}, s'.txns u = some y → s.txns u = some y ∨ u = s.begins ∧
      y.state.version = next ∧ (recordAt s'.store (.txnActive next)).isSome) : Base s' := by
  obtain ⟨hle, hall⟩ := h.next hb hn
  have hver : ∀ {u y}, s.txns u = some y → y.state.version < next :=
    fun hy => hall _ (.inl ⟨_, _, hy, rfl⟩)
  refine ⟨henc, ?_, ?_, ?_, ?_, ?_⟩
  · intro k v x hx
    rw [hrec _ (by simp) (by simp)] at hx
    exact h.tagged k v x hx
  · intro u y hy
    rcases htxns hy with hy | ⟨rfl, -⟩
    · have := h.bound hy
      omega
    · omega
  · intro u w y z hy hz hlt
    rcases htxns hy with hy | ⟨rfl, -⟩
    · rcases htxns hz with hz | ⟨-, hzv, -⟩
      · exact h.order hy hz hlt
      · rw [hzv]
        exact hver hy
    · rcases htxns hz with hz | ⟨rfl, -⟩
      · have := h.bound hz
        omega
      · exact absurd hlt (lt_irrefl _)
  · intro u y hl
    obtain ⟨hy, hst⟩ := live_iff.mp hl
    rcases htxns hy with hy | ⟨-, hyv, hmark⟩
    · have hne : y.state.version ≠ next := ne_of_lt (hver hy)
      rw [hrec _ (by simp) (by simpa using hne)]
      exact h.marker (live_iff.mpr ⟨hy, hst⟩)
    · rw [hyv]
      exact hmark
  · intro hlt
    rw [hbegins] at hlt ⊢
    have hval : (next + 1).val = next.val + 1 := by
      rw [Fin.val_add]
      apply Nat.mod_eq_of_lt
      change next.val + 1 < 2 ^ 64
      omega
    have hbelow : next < next + 1 := by
      rw [Fin.lt_def, hval]
      omega
    refine ⟨next + 1, ?_, by omega, ?_⟩
    · unfold NextIs
      rw [hnext]
      simp only [Option.join_some, loadNext, decodeVersion_encode]
      rfl
    · intro v hv
      rcases hv with ⟨u, y, hy, rfl⟩ | ⟨key, hkey, rfl, hsome⟩
      · rcases htxns hy with hy | ⟨-, hyv, -⟩
        · exact lt_trans (hver hy) hbelow
        · rw [hyv]
          exact hbelow
      · by_cases hk : key = .txnActive next
        · rw [hk]
          exact hbelow
        · rw [hrec key hkey hk] at hsome
          exact lt_trans (hall _ (.inr ⟨key, hkey, rfl, hsome⟩)) hbelow

theorem commitKeys_own {v : Version} {ks : List Bytes} :
    ∀ key ∈ commitKeys v ks, key ≠ .nextVersion ∧ key.versionField = v := by
  intro key hin
  rcases mem_commitKeys.mp hin with ⟨k, -, rfl⟩ | rfl <;> exact ⟨by simp, rfl⟩

theorem rollbackKeys_own {v : Version} {ks : List Bytes} :
    ∀ key ∈ rollbackKeys v ks, key ≠ .nextVersion ∧ key.versionField = v := by
  intro key hin
  rcases mem_rollbackKeys.mp hin with ⟨k, -, rfl | rfl⟩ | rfl <;> exact ⟨by simp, rfl⟩

/-- A complete operation. -/
theorem OpEffect.base {o : Op} {r : Except Error Answer} (he : OpEffect n s o s' r) (h : Base s)
    (hb : s'.begins < 2 ^ 64) : Base s' := by
  cases he with
  | @begin next active counter markers =>
    have hlt : s.begins + 1 < 2 ^ 64 := hb
    refine h.advance (by omega) counter (h.encoded.begun next) (by simp) ?_ rfl ?_
    · intro key h1 h2
      rw [opened_store, recordAt_begun, if_neg h2, if_neg h1]
    · intro u y hy
      rcases opened_txns hy with hy | ⟨rfl, rfl⟩
      · exact .inl hy
      · exact .inr ⟨rfl, rfl, by simp⟩
  | get live => exact h
  | scanPrefix live => exact h
  | conflict live blocked => exact h
  | @write t x k value live free =>
    obtain ⟨hx, hst⟩ := live_iff.mp live
    refine h.own _ hx (h.encoded.written _ k value) (h.tagged.written _ k value)
      (frame_written _ k value s.store) (le_refl _) (wrote_txns hx _ k value) rfl ?_
    intro _
    change (recordAt (Proofs.written n x.state.version k value s.store) _).isSome
    simpa using h.marker live
  | commit live writes =>
    obtain ⟨hx, hst⟩ := live_iff.mp live
    exact h.own _ hx (h.encoded.eraseAll _) (h.tagged.eraseAll _)
      (frame_eraseAll s.store commitKeys_own) (le_refl _) (record_commit_txns hx _) rfl
      (fun hl => by cases hl)
  | rollback live writes =>
    obtain ⟨hx, hst⟩ := live_iff.mp live
    exact h.own _ hx (h.encoded.eraseAll _) (h.tagged.eraseAll _)
      (frame_eraseAll s.store rollbackKeys_own) (le_refl _) (record_rollback_txns hx _) rfl
      (fun hl => by cases hl)

/-- An operation on a handle changes only records of its version. -/
theorem OpEffect.own_frame {o : Op} {r : Except Error Answer} (he : OpEffect n s o s' r)
    (ho : handle o = some t) (hx : s.txns t = some x) : Frame x.state.version s.store s'.store := by
  have hself : ∀ {u y}, handle o = some u → s.live u = some y → y = x := by
    intro u y hu hl
    rw [ho] at hu
    cases hu
    have := (live_iff.mp hl).1
    rw [hx] at this
    exact (Option.some.inj this).symm
  cases he with
  | begin counter markers => cases ho
  | get live => exact fun _ _ => rfl
  | scanPrefix live => exact fun _ _ => rfl
  | conflict live blocked => exact fun _ _ => rfl
  | write live free =>
    rw [← hself (handle_writeOp _ _ _) live]
    exact frame_written _ _ _ s.store
  | commit live writes =>
    rw [← hself rfl live]
    exact frame_eraseAll s.store commitKeys_own
  | rollback live writes =>
    rw [← hself rfl live]
    exact frame_eraseAll s.store rollbackKeys_own

/-- Some of its records are deleted, but not its marker. -/
theorem Base.erase_part {keys all : List MvccKey} (h : Base s)
    (hl : s.live t = some x)
    (hall : ∀ key ∈ all, key ≠ .nextVersion ∧ key.versionField = x.state.version)
    (hkeys : keys <+: all) (hmark : .txnActive x.state.version ∉ keys) :
    Base { s with store := eraseAll keys s.store } := by
  obtain ⟨hx, hst⟩ := live_iff.mp hl
  refine h.own x hx (h.encoded.eraseAll _) (h.tagged.eraseAll _)
    (frame_eraseAll s.store (fun key hk => hall key (hkeys.subset hk))) (le_refl _) ?_ rfl ?_
  · rw [← hx, Function.update_eq_self]
  · intro _
    change (recordAt (eraseAll keys s.store) _).isSome
    rw [recordAt_eraseAll, if_neg hmark]
    exact h.marker hl

theorem not_mem_take {α : Type} {l : List α} {a : α} {j : Nat} (hj : j < (l ++ [a]).length)
    (ha : a ∉ l) : a ∉ (l ++ [a]).take j := by
  rw [List.length_append, List.length_singleton] at hj
  rw [List.take_append_of_le_length (by omega)]
  exact fun hin => ha (List.mem_of_mem_take hin)

theorem FaultEffect.base {faults : Nat → Option Error} {o : Op} {r : Except Error Answer}
    (he : FaultEffect n s faults o s' r) (h : Base s) (hb : s'.begins < 2 ^ 64) : Base s' := by
  cases he with
  | op effect => exact effect.base h hb
  | commit live writes lt fault first =>
    exact h.erase_part live commitKeys_own (List.take_prefix _ _) (not_mem_take lt (by simp))
  | rollback live writes lt fault first =>
    exact h.erase_part live rollbackKeys_own (List.take_prefix _ _) (not_mem_take lt (by simp))

theorem Base.late (h : Base s) : Base { s with begins := s.begins + 1 } := by
  refine ⟨h.encoded, h.tagged, ?_, h.order, h.marker, ?_⟩
  · intro u y hy
    exact Nat.lt_succ_of_lt (h.bound hy)
  · intro hlt
    change s.begins + 1 < 2 ^ 64 - 1 at hlt
    obtain ⟨next, hn, hle, hall⟩ := h.counter (by omega)
    exact ⟨next, hn, Nat.le_succ_of_le hle, hall⟩

/-- A process that died has left records of one handle, which is now lost. -/
theorem Base.lost_own {store : Store} (h : Base s) (hl : s.live t = some x) (henc : Encoded store)
    (htag : Tagged store) (hframe : Frame x.state.version s.store store) :
    Base { s.lose with store := store } := by
  refine h.lose.own { x with status := .lost } (lose_live hl) henc htag hframe (le_refl _) ?_ rfl
    (fun hst => by cases hst)
  rw [← lose_live hl, Function.update_eq_self]

theorem frame_insert {v : Version} {key : MvccKey} (store : Store) (value : Slice)
    (hkey : key ≠ .nextVersion ∧ key.versionField = v) :
    Frame v store (store.insert key.encode value) := by
  intro key' h'
  rw [recordAt_insert, if_neg]
  rintro rfl
  exact h'.elim hkey.1 (fun hne => hne hkey.2)

/-- An operation inside of which the process dies. -/
theorem CrashEffect.base (he : CrashEffect n s s') (h : Base s) (hb : s'.begins < 2 ^ 64) :
    Base s' := by
  cases he with
  | idle => exact h.lose
  | beginIdle => exact h.lose.late
  | beginCounted counter =>
    have hlt : s.begins + 1 < 2 ^ 64 := hb
    refine h.lose.advance (by change s.begins < _; omega) counter
      (h.encoded.insert _ _) (by simp) ?_
      rfl (fun hy => .inl hy)
    intro key h1 _
    exact (recordAt_insert _ _ _ _).trans (if_neg h1)
  | beginMarked counter =>
    have hlt : s.begins + 1 < 2 ^ 64 := hb
    refine h.lose.advance (by change s.begins < _; omega) counter (h.encoded.begun _) (by simp) ?_
      rfl (fun hy => .inl hy)
    intro key h1 h2
    exact (recordAt_begun _ _ _).trans ((if_neg h2).trans (if_neg h1))
  | @writeListed t x k live free =>
    refine h.lost_own live (h.encoded.insert _ _) ?_ (frame_insert s.store _ ⟨by simp, rfl⟩)
    intro j v r hr
    rw [recordAt_insert, if_neg (by simp)] at hr
    exact h.tagged j v r hr
  | written live free =>
    exact h.lost_own live (h.encoded.written _ _ _) (h.tagged.written _ _ _)
      (frame_written _ _ _ s.store)
  | @commitPart t x ks live writes =>
    refine h.lost_own live (h.encoded.eraseAll _) (h.tagged.eraseAll _)
      (frame_eraseAll s.store ?_)
    intro key hkey
    obtain ⟨k, -, rfl⟩ := List.mem_map.mp hkey
    exact ⟨by simp, rfl⟩
  | committed live writes =>
    exact ((OpEffect.commit (n := n) live writes).base h hb).lose
  | rollbackPart live writes part =>
    exact h.lost_own live (h.encoded.eraseAll _) (h.tagged.eraseAll _)
      (frame_eraseAll s.store (fun key hk => rollbackKeys_own key (part.subset hk)))

/-- What the counter is worth for the next Begin. -/
theorem Base.counts {st : Step} {r : Result} (h : Base s) (hstep : s.step n st = some (s', r))
    (hb : s'.begins < 2 ^ 64) : operation st = .begin → ∃ next, NextIs s.store next := by
  intro ho
  have hlt := step_begins hstep
  rw [if_pos ho] at hlt
  obtain ⟨next, hn, -⟩ := h.counter (by omega)
  exact ⟨next, hn⟩

/-- The invariant along every step, with or without faults. -/
theorem step_base {st : Step} {r : Result} (h : Base s) (hstep : s.step n st = some (s', r))
    (hb : s'.begins < 2 ^ 64) : Base s' := by
  have hn := h.counts hstep hb
  cases st with
  | op o =>
    obtain ⟨a, -, he⟩ := op_effect h.encoded hn hstep
    exact he.base h hb
  | crash o calls =>
    exact (crash_effect h.encoded hn (fun _ _ hl => h.marker hl) hstep).base h hb
  | faulty o faults =>
    obtain ⟨a, -, he⟩ := fault_effect h.encoded hn hstep
    exact he.base h hb

theorem Reaches.base {kind : Step → Prop} (h : Reaches n kind s) (hb : s.begins < 2 ^ 64) :
    Base s := by
  obtain ⟨steps, results, hk, hrun⟩ := h
  refine run_induction (P := fun s => s.begins < 2 ^ 64 → Base s) ?_ hk (fun _ => base_init) hrun hb
  intro s st s' r _ hbase hstep hb
  exact step_base (hbase (lt_of_le_of_lt (step_begins_le hstep) hb)) hstep hb

end SpaceDB.Proofs
