import SpaceDB.Lib.Serial
import SpaceDB.Proofs.Sessions

namespace SpaceDB.Proofs
open Lib Storage Sql Engine

structure Faithful (codec : Codec) : Prop where
  table : ∀ {table encoded}, codec.encodeTable table = .ok encoded →
    codec.decodeTable encoded = .ok table
  row : ∀ {row encoded}, codec.encodeRow row = .ok encoded → codec.decodeRow encoded = .ok row

def packValue : Byte × Fin (2 ^ 64) × Bytes → Value
  | (tag, n, s) => match tag.val with
    | 0 => .null
    | 1 => .boolean (decide (n ≠ 0))
    | 2 => .integer ⟨(n.val : Int) - 2 ^ 63, by have := n.isLt; omega⟩
    | 3 => .float ⟨n⟩
    | _ => .string s

theorem unsigned_lt (i : Sql.Int64) : (i.val + 2 ^ 63).toNat < 2 ^ 64 := by
  have hi := i.property
  omega

def unpackValue : Value → Byte × Fin (2 ^ 64) × Bytes
  | .null => (0, 0, [])
  | .boolean b => (1, if b then 1 else 0, [])
  | .integer i => (2, ⟨(i.val + 2 ^ 63).toNat, unsigned_lt i⟩, [])
  | .float f => (3, f.bits, [])
  | .string s => (4, 0, s)

theorem pack_unpackValue (v : Value) : packValue (unpackValue v) = v := by
  cases v with
  | null => rfl
  | boolean b => cases b <;> rfl
  | integer i =>
    have hi := i.property
    have hval : (((i.val + 2 ^ 63).toNat : Nat) : Int) - 2 ^ 63 = i.val := by omega
    exact congrArg Value.integer (Subtype.ext hval)
  | float f => rfl
  | string s => rfl

def valueSerial : Serial Value :=
  (Serial.byte.pair (Serial.uint64.pair Serial.byte.list)).map packValue unpackValue
    pack_unpackValue

def packType (b : Byte) : DataType :=
  match b.val with
  | 0 => .boolean
  | 1 => .integer
  | 2 => .float
  | _ => .string

def typeSerial : Serial DataType :=
  Serial.byte.map packType
    (fun | .boolean => 0 | .integer => 1 | .float => 2 | .string => 3) (by intro t; cases t <;> rfl)

def columnSerial : Serial Column :=
  (Serial.byte.list.pair
    (typeSerial.pair (Serial.bool.pair (valueSerial.option.pair Serial.bool)))).map
    (fun x => ⟨x.1, x.2.1, x.2.2.1, x.2.2.2.1, x.2.2.2.2⟩)
    (fun c => (c.name, c.dataType, c.nullable, c.default, c.primaryKey)) (fun _ => rfl)

def tableSerial : Serial Table :=
  (Serial.byte.list.pair columnSerial.list).map (fun x => ⟨x.1, x.2⟩) (fun t => (t.name, t.columns))
    (fun _ => rfl)

def fromSerial {α : Type} (a : Serial α) (encoded : Bytes) : Except Error α :=
  match a.take encoded with
  | some (x, _) => .ok x
  | none => .error (.new "invalid input" [])

theorem fromSerial_put {α : Type} (a : Serial α) (x : α) : fromSerial a (a.put x) = .ok x := by
  unfold fromSerial
  rw [← List.append_nil (a.put x), a.take_put]

/-- A codec that encodes everything and returns it unchanged. -/
def serialCodec : Codec where
  encodeTable table := .ok (tableSerial.put table)
  decodeTable := fromSerial tableSerial
  encodeRow row := .ok (valueSerial.list.put row)
  decodeRow := fromSerial valueSerial.list

/-- The serial forms are read back. -/
theorem serialCodec_faithful : Faithful serialCodec where
  table := by
    intro table encoded h
    cases h
    exact fromSerial_put tableSerial table
  row := by
    intro row encoded h
    cases h
    exact fromSerial_put valueSerial.list row

def serialSetting : Setting := ⟨.kept, serialCodec, .same _⟩

def executed (j : Nat) (sql : String) (calls : Nat) : List Event :=
  .start (ascii sql) :: List.replicate calls (.advance j)

theorem run_world_append {setting : Setting} {w : World} (as bs : List Event) :
    setting.run w (as ++ bs) = (setting.run w as).bind (fun m => setting.run m bs) := by
  induction as generalizing w with
  | nil => rfl
  | cons e as ih =>
    change (setting.step w e).bind _ = ((setting.step w e).bind _).bind _
    cases setting.step w e with
    | none => rfl
    | some m => exact ih

theorem reaches_run {setting : Setting} {w w' : World} {events : List Event}
    (h : setting.Reaches w) (hrun : setting.run w events = some w') : setting.Reaches w' := by
  obtain ⟨before, hbefore⟩ := h
  refine ⟨before ++ events, ?_⟩
  rw [run_world_append, hbefore]
  exact hrun

/-- A statement that fails before it reads or writes anything: the table has no
primary key. -/
def failing : String := "CREATE TABLE t (a INT);"

theorem failing_calls (codec : Codec) (walk : Walk) : ∃ next last,
    Session.execute codec walk (ascii failing) = .call .begin next ∧
      next (.ok ()) = .call .rollback last := by
  have hplan : Session.plan (ascii failing) =
      .ok (.createTable ⟨ascii "t", [⟨ascii "a", .integer, true, some .null, false⟩]⟩) := by
    decide +kernel
  unfold Session.execute
  rw [hplan]
  exact ⟨_, _, rfl, rfl⟩

section Rounds
variable {setting : Setting} {w : World} {data : Store} {m : Nat}

/-- One call of an execution, when its operation is known. -/
theorem step_advance {j : Nat} {sql : Bytes} {handle : Option Nat} {c : MvccCall}
    {next : MvccRet c → KvM ResultSet} {s' : Sys} {o : Op} {r : Except Error Answer}
    (hpending : w.executions j = some ⟨sql, handle, .call c next⟩) (hop : c.op handle = some o)
    (hstep : w.sys.step setting.nil (.op o) = some (s', some r)) :
    ∃ w', setting.step w (.advance j) = some w' ∧ w'.sys = s' ∧ w'.started = w.started ∧
      w'.executions j = some ⟨sql, c.next handle w.sys.begins r, next (c.answer r)⟩ := by
  refine ⟨{ w with
    sys := s'
    executions := Function.update w.executions j
      (some ⟨sql, c.next handle w.sys.begins r, next (c.answer r)⟩) }, ?_, rfl, rfl, ?_⟩
  · simp only [Setting.step, hpending, serve_eq hop hstep]
  · exact Function.update_self _ _ _

theorem result_ofExcept (sql : Bytes) (handle : Option Nat) (r : Outcome ResultSet) :
    Execution.result ⟨sql, handle, .ofExcept r⟩ = some r := by
  cases r <;> rfl

variable (setting) in
/-- The calls of one statement, with no other event between them, bring it to
its end. -/
theorem statement_runs {j : Nat} {sql : Bytes} (rest : KvM ResultSet) :
    ∀ {w : World} {handle : Option Nat}, w.executions j = some ⟨sql, handle, rest⟩ →
      ∃ n w' handle', setting.run w (List.replicate n (.advance j)) = some w' ∧
        w'.executions j =
          some ⟨sql, handle', .ofExcept (rest.run (serve setting.nil) (w.sys, handle)).1⟩ ∧
        w'.sys = (rest.run (serve setting.nil) (w.sys, handle)).2.1 ∧ w'.started = w.started := by
  induction rest with
  | done a => exact fun he => ⟨0, _, _, rfl, he, rfl, rfl⟩
  | fail f => exact fun he => ⟨0, _, _, rfl, he, rfl, rfl⟩
  | call c next ih =>
    intro w handle he
    have hstep : setting.step w (.advance j) = some { w with
        sys := (serve setting.nil c (w.sys, handle)).2.1
        executions := Function.update w.executions j (some ⟨sql,
          (serve setting.nil c (w.sys, handle)).2.2,
          next (serve setting.nil c (w.sys, handle)).1⟩) } := by
      simp only [Setting.step, he]
    obtain ⟨n, w', handle', hrun, hrest, hsys, hstarted⟩ := ih _
      (w := { w with
        sys := (serve setting.nil c (w.sys, handle)).2.1
        executions := Function.update w.executions j (some ⟨sql,
          (serve setting.nil c (w.sys, handle)).2.2,
          next (serve setting.nil c (w.sys, handle)).1⟩) }) (Function.update_self _ _ _)
    refine ⟨n + 1, w', handle', ?_, hrest, hsys, hstarted⟩
    rw [List.replicate_succ, Setting.run, hstep]
    exact hrun

/-- The failing statement takes a version and leaves the data alone. -/
theorem failing_round (setting : Setting) (h : Idle data m w.sys) (hd : Settled data) :
    ∃ w', setting.run w (executed w.started failing 2) = some w' ∧ w'.started = w.started + 1 ∧
      Idle data (m + 1) w'.sys ∧
      ∀ t x, w'.sys.txns t = some x → x.status = .rolledBack ∨ w.sys.txns t = some x := by
  obtain ⟨next, last, hexecute, hnext⟩ :=
    failing_calls setting.codec (setting.walks.order w.started)
  obtain ⟨s₁, s', st, hbegin, hrollback, hidle, hothers⟩ := h.rollback_round hd setting.nil
  have hpending : (setting.start w (ascii failing)).executions w.started =
      some ⟨ascii failing, none, .call .begin next⟩ := by
    rw [← hexecute]
    exact Function.update_self _ _ _
  obtain ⟨w₁, hw₁, hsys₁, hstarted₁, hrest₁⟩ := step_advance hpending rfl hbegin
  have hpending₁ : w₁.executions w.started =
      some ⟨ascii failing, some w.sys.begins, .call .rollback last⟩ := by
    rw [hrest₁, ← hnext]
    rfl
  rw [← hsys₁, ← h.begins] at hrollback
  obtain ⟨w₂, hw₂, hsys₂, hstarted₂, -⟩ := step_advance hpending₁ rfl hrollback
  refine ⟨w₂, ?_, hstarted₂.trans hstarted₁, hsys₂ ▸ hidle, hsys₂ ▸ hothers⟩
  change (setting.step (setting.start w (ascii failing)) (.advance w.started)).bind _ = _
  rw [hw₁]
  change (setting.step w₁ (.advance w.started)).bind _ = _
  rw [hw₂]
  rfl

/-- Statements that fail use up versions and leave nothing. -/
theorem failing_rounds (setting : Setting) (h : Idle data m w.sys) (hd : Settled data) (k : Nat) :
    ∃ events w', setting.run w events = some w' ∧ w'.started = w.started + k ∧
      Idle data (m + k) w'.sys ∧
      ∀ t x, w'.sys.txns t = some x → x.status = .rolledBack ∨ w.sys.txns t = some x := by
  induction k with
  | zero => exact ⟨[], w, rfl, rfl, h, fun t x hx => .inr hx⟩
  | succ k ih =>
    obtain ⟨events, w₁, hrun, hstarted, hidle, hothers⟩ := ih
    obtain ⟨w₂, hrun₂, hstarted₂, hidle₂, hothers₂⟩ := failing_round setting hidle hd
    refine ⟨events ++ executed w₁.started failing 2, w₂, ?_, by omega, hidle₂, ?_⟩
    · rw [run_world_append, hrun]
      exact hrun₂
    · intro t x hx
      exact (hothers₂ t x hx).elim .inl (hothers t x)

/-- The world `w` goes on after `old` as `v` does after a system that holds
nothing but the data and the counter; `k` statements came before. -/
structure Resumes (old : Sys) (k : Nat) (v w : World) : Prop where
  sys : w.sys = Sys.after old v.sys
  begins : old.begins ≤ v.sys.begins
  started : w.started = v.started
  later : k ≤ v.started
  executions : ∀ {j e}, v.executions j = some e → w.executions j = some e
  fresh : ∀ {j e}, v.executions j = some e → k ≤ j
  handles : ∀ {j e t}, v.executions j = some e → e.handle = some t → old.begins ≤ t

theorem Resumes.step {old s' : Sys} {k t : Nat} {v : World} {n : NilValue} {o : Op} {r : Result}
    (h : Resumes old k v w) (ho : handle o = some t) (ht : old.begins ≤ t)
    (hstep : v.sys.step n (.op o) = some (s', r)) :
    w.sys.step n (.op o) = some (Sys.after old s', r) := by
  rw [h.sys]
  apply step_after h.begins _ hstep
  intro u hu
  rw [ho] at hu
  cases hu
  exact ht

theorem op_handle {c : MvccCall} {handle' : Option Nat} {o : Op} {t : Nat}
    (hop : c.op handle' = some o) (ht : handle o = some t) : handle' = some t := by
  cases c with
  | begin =>
    cases hop
    cases ht
  | _ =>
    obtain ⟨u, rfl, rfl⟩ := Option.map_eq_some_iff.mp hop
    exact ht

/-- The MVCC answers a younger transaction as if the older ones were not
there. -/
theorem serve_after {old s : Sys} (n : NilValue) (c : MvccCall) {handle : Option Nat}
    (hb : old.begins ≤ s.begins) (hhandle : ∀ t, handle = some t → old.begins ≤ t) :
    serve n c (Sys.after old s, handle) = ((serve n c (s, handle)).1,
      (Sys.after old (serve n c (s, handle)).2.1, (serve n c (s, handle)).2.2)) := by
  unfold serve
  cases hop : c.op handle with
  | none => rfl
  | some o =>
    simp only [Option.bind_some, step_after_eq hb (fun t ht => hhandle t (op_handle hop ht))]
    cases s.step n (.op o) with
    | none => rfl
    | some q =>
      obtain ⟨s', r⟩ := q
      cases r with
      | none => rfl
      | some r => rfl

theorem serve_handle {s : Sys} {n : NilValue} {c : MvccCall} {handle : Option Nat} {t : Nat}
    (h : (serve n c (s, handle)).2.2 = some t) : handle = some t ∨ t = s.begins := by
  unfold serve at h
  split at h
  next s' r hstep =>
    cases c with
    | begin =>
      cases r with
      | ok a => exact .inr (Option.some.inj h).symm
      | error e => exact .inl h
    | _ => exact .inl h
  · exact .inl h

/-- The same program is started in both worlds. -/
theorem Resumes.opened {old : Sys} {k : Nat} {v : World} (h : Resumes old k v w) (sql : Bytes)
    (rest : KvM ResultSet) : Resumes old k
      { v with
        started := v.started + 1
        executions := Function.update v.executions v.started (some ⟨sql, none, rest⟩) }
      { w with
        started := w.started + 1
        executions := Function.update w.executions w.started (some ⟨sql, none, rest⟩) } := by
  have hold : ∀ {j e}, Function.update v.executions v.started (some ⟨sql, none, rest⟩) j = some e →
      v.executions j = some e ∨ j = v.started ∧ e = ⟨sql, none, rest⟩ := by
    intro j e hj
    rw [Function.update_apply] at hj
    split_ifs at hj with heq
    · exact .inr ⟨heq, (Option.some.inj hj).symm⟩
    · exact .inl hj
  refine ⟨h.sys, h.begins, congrArg (· + 1) h.started, Nat.le_succ_of_le h.later, ?_, ?_, ?_⟩
  · intro j e hj
    dsimp only at hj ⊢
    rw [h.started, Function.update_apply]
    rw [Function.update_apply] at hj
    split_ifs at hj ⊢
    · exact hj
    · exact h.executions hj
  · intro j e hj
    rcases hold hj with hj | ⟨rfl, -⟩
    · exact h.fresh hj
    · exact h.later
  · intro j e t hj ht
    rcases hold hj with hj | ⟨-, rfl⟩
    · exact h.handles hj ht
    · cases ht

theorem Resumes.start {old : Sys} {k : Nat} {v : World} (h : Resumes old k v w) (sql : Bytes) :
    Resumes old k (setting.start v sql) (setting.start w sql) := by
  have hopened := h.opened sql (Session.execute setting.codec (setting.walks.order v.started) sql)
  unfold Setting.start
  rw [h.started] at hopened ⊢
  exact hopened

/-- A call of a statement that was started after `old`. -/
theorem Resumes.advance {old : Sys} {k j : Nat} {v v' : World} (h : Resumes old k v w)
    (hstep : setting.step v (.advance j) = some v') :
    ∃ w', setting.step w (.advance j) = some w' ∧ Resumes old k v' w' := by
  simp only [Setting.step] at hstep
  split at hstep
  next sql handle c next hpending =>
    cases hstep
    have hserve := serve_after setting.nil c h.begins (fun t => h.handles hpending)
    have hbegins := serve_begins_le setting.nil c v.sys handle
    simp only [Setting.step, h.executions hpending, h.sys, hserve]
    refine ⟨_, rfl, rfl, le_trans h.begins hbegins, h.started, h.later, ?_, ?_, ?_⟩
    · intro i e hi
      dsimp only at hi ⊢
      rw [Function.update_apply] at hi ⊢
      split_ifs at hi ⊢
      · exact hi
      · exact h.executions hi
    · intro i e hi
      dsimp only at hi
      rw [Function.update_apply] at hi
      split_ifs at hi with hij
      · exact hij ▸ h.fresh hpending
      · exact h.fresh hi
    · intro i e t hi ht
      dsimp only at hi
      rw [Function.update_apply] at hi
      split_ifs at hi with hij
      · cases hi
        rcases serve_handle ht with ht | rfl
        · exact h.handles hpending ht
        · exact h.begins
      · exact h.handles hi ht
  · cases hstep

def calm : Event → Prop
  | .crash _ _ => False
  | _ => True

/-- A run that starts no process goes on alike. -/
theorem Resumes.run {old : Sys} {k : Nat} {v v' : World} {events : List Event}
    (h : Resumes old k v w) (hcalm : ∀ e ∈ events, calm e) (hrun : setting.run v events = some v') :
    ∃ w', setting.run w events = some w' ∧ Resumes old k v' w' := by
  induction events generalizing v w with
  | nil =>
    cases hrun
    exact ⟨w, rfl, h⟩
  | cons e events ih =>
    obtain ⟨he, hrest⟩ := List.forall_mem_cons.mp hcalm
    obtain ⟨m, hm, hlast⟩ := Option.bind_eq_some_iff.mp hrun
    cases e with
    | start sql =>
      cases hm
      exact ih (h.start sql) hrest hlast
    | advance j =>
      obtain ⟨w₁, hw₁, h₁⟩ := h.advance hm
      obtain ⟨w', hw', h'⟩ := ih h₁ hrest hlast
      refine ⟨w', ?_, h'⟩
      change (setting.step w (.advance j)).bind _ = _
      rw [hw₁]
      exact hw'
    | crash j calls => exact he.elim

end Rounds

def committedData (records : List (Bytes × Version × Bytes)) : Store :=
  records.foldl (fun data r => data.insert (MvccKey.version r.1 r.2.1).encode
    (some (encodeSlice (some r.2.2)))) .empty

theorem committedData_settled (records : List (Bytes × Version × Bytes)) :
    Settled (committedData records) := by
  induction records using List.reverseRecOn with
  | nil => exact settled_empty
  | append_singleton records r ih =>
    unfold committedData
    rw [List.foldl_append]
    exact ih.insert _ _ _

def resumedWorld (data : Store) (m k : Nat) : World := ⟨resumed data m, k, fun _ => none⟩

theorem reaches_sound {setting : Setting} {w : World} (h : setting.Reaches w)
    (hb : w.sys.begins < 2 ^ 64 - 1) : Sound (fun _ => True) (fun _ _ => True) w := by
  obtain ⟨events, hrun⟩ := h
  apply run_sound _ _ (fun _ _ _ => trivial) ?_ sound_init hrun hb
  exact fun i sql => session_phases setting.codec (setting.walks.perm i) sql

theorem reaches_inv {setting : Setting} {w : World} (h : setting.Reaches w)
    (hb : w.sys.begins < 2 ^ 64 - 1) : Inv w.sys :=
  (reaches_sound h hb).sys

/-- A first part of a run, by evaluation, and then `k` failing statements. What
comes after that can be computed from the data alone. -/
theorem world_rounds (records : List (Bytes × Version × Bytes)) (first : List Event)
    (commits : List Nat) {a b : Nat} (k : Nat) (ha : a ≠ 0) (hlt : a < 2 ^ 64 - 1)
    (hearly : ∀ u ∈ commits, u < a)
    (hfirst : (serialSetting.run .init first).map
        (fun w => (w.sys.store.entries, w.sys.begins, w.sys.commits, w.started)) =
      some ((counterStore (committedData records) (Fin.ofNat (2 ^ 64) (a + 1))).entries,
        a, commits, b)) :
    ∃ before, serialSetting.Reaches before ∧ before.sys.begins = a + k ∧
      Resumes before.sys (b + k) (resumedWorld (committedData records) (a + k) (b + k)) before ∧
      ∃ w, serialSetting.run .init first = some w ∧
        ∀ t x, before.sys.txns t = some x → x.status = .rolledBack ∨ w.sys.txns t = some x := by
  obtain ⟨w₀, hrun₀, heq⟩ := Option.map_eq_some_iff.mp hfirst
  simp only [Prod.mk.injEq] at heq
  obtain ⟨hentries, hbegins, hcommits, hstarted⟩ := heq
  have hbase : Base w₀.sys := (reaches_inv ⟨first, hrun₀⟩ (by omega)).toBase
  have hidle : Idle (committedData records) a w₀.sys := by
    have hstore : w₀.sys.store =
        counterStore (committedData records) (Fin.ofNat (2 ^ 64) (a + 1)) :=
      OrderedMap.ext hentries
    refine ⟨hbase.encoded, ?_, ?_, hbegins, ?_, ?_⟩
    · intro key hkey
      rw [hstore, counterStore, recordAt_insert, if_neg hkey]
    · rw [hstore, counterStore, recordAt_insert, if_pos rfl, if_neg ha]
    · intro t y hy
      exact hbegins ▸ hbase.bound hy
    · intro u hu
      apply hearly
      exact hcommits ▸ hu
  have hd := committedData_settled records
  obtain ⟨events, before, hrun, hstarted', hidle', hothers⟩ :=
    failing_rounds serialSetting hidle hd k
  have hcount : before.started = b + k := by omega
  refine ⟨before, reaches_run ⟨first, hrun₀⟩ hrun, hidle'.begins,
    ⟨(hidle'.after_resumed hd (by omega)).symm, le_of_eq hidle'.begins, hcount,
      le_refl _, ?_, ?_, ?_⟩,
    w₀, hrun₀, hothers⟩
  · intro j e hj
    cases hj
  · intro j e hj
    cases hj
  · intro j e t hj
    cases hj

end SpaceDB.Proofs
