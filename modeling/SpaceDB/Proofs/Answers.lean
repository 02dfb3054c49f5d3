import SpaceDB.Proofs.BuiltPlans
import SpaceDB.Proofs.Responses

namespace SpaceDB.Proofs
open Lib Storage Sql Engine Server

variable {host : Host} {setting : Setting} {s s' : State} {w w' : World}
    {c : Connection} {j k : Nat}

def OwnWork (k : Nat) (e : NetEvent) : Prop := e = .scan k ∨ e = .advance k ∨ e = .respond k

theorem host_run_append {s : State} (as bs : List NetEvent) :
    host.run s (as ++ bs) = (host.run s as).bind fun m => host.run m bs := by
  induction as generalizing s with
  | nil => rfl
  | cons e as ih =>
    change (host.step s e).bind _ = ((host.step s e).bind _).bind _
    cases host.step s e with
    | none => rfl
    | some m => exact ih

/-- Calls of a connection's statement are events of the server. -/
theorem host_advances {n : Nat} (hk : Host.statement s k = some (c, j))
    (hrun : host.setting.run s.world (List.replicate n (.advance j)) = some w') :
    host.run s (List.replicate n (.advance k)) = some { s with world := w' } := by
  induction n generalizing s with
  | zero =>
    cases hrun
    rfl
  | succ n ih =>
    rw [List.replicate_succ] at hrun ⊢
    obtain ⟨m, hstep, hrest⟩ := Option.bind_eq_some_iff.mp hrun
    have hadvance : host.step s (.advance k) = some { s with world := m } := by
      simp [Host.step, hk, hstep]
    have hstill : Host.statement { s with world := m } k = some (c, j) := hk
    rw [Host.run, hadvance]
    exact ih hstill hrest

/-- The connection is in a statement that has panicked, which ends the process. -/
def Fatal (s : State) (c : Connection) (sql : Bytes) : Prop :=
  ∃ j e message, c.stage = .executing j ∧ s.world.executions j = some e ∧ e.sql = sql ∧
    e.result = some (.error (.panic message)) ∧ TextPanic sql message

/-- Connection `k` has come to a fatal statement, and has not been closed by its
client meanwhile. -/
def Ends (s : State) (k : Nat) (ended : Bool) : Prop :=
  ∃ c sql, s.connections k = some c ∧ c.scanner.ended = ended ∧ Fatal s c sql

/-- A statement is finished and answered by its own connection. -/
theorem statement_answered (h : host.setting.Reaches s.world) (hc : s.connections k = some c)
    (hstage : c.stage = .executing j) {e : Execution} (he : s.world.executions j = some e) :
    ∃ own s', (∀ e ∈ own, OwnWork k e) ∧ host.run s own = some s' ∧
      ((∃ text, s'.connections k = some { c with stage := .scanning, sent := c.sent ++ text }) ∨
        Ends s' k c.scanner.ended) := by
  obtain ⟨sql, handle, rest⟩ := e
  obtain ⟨n, w', handle', hrun, he', -, -⟩ := statement_runs host.setting rest he
  generalize (rest.run (serve host.setting.nil) (s.world.sys, handle)).1 = r at he'
  have hr := result_ofExcept sql handle' r
  have hk : Host.statement s k = some (c, j) := by simp [Host.statement, hc, hstage]
  have hadvanced := host_advances hk hrun
  have hadvances : ∀ e ∈ List.replicate n (NetEvent.advance k), OwnWork k e :=
    fun e he => .inr (.inl (List.eq_of_mem_replicate he))
  have hconcludes := reaches_concludes (reaches_run h hrun) he' hr
  cases hresponse : response host.texts r with
  | none =>
    refine ⟨_, _, hadvances, hadvanced, .inr ?_⟩
    rcases r with (e | message) | result
    · cases hresponse
    · exact ⟨c, sql, hc, rfl, j, _, message, hstage, he', rfl, hr, hconcludes⟩
    · cases hresponse
  | some text =>
    have hrespond : host.step { s with world := w' } (.respond k) =
        some (({ s with world := w' } : State).put k
          { c with stage := .scanning, sent := c.sent ++ text }) := by
      have hk' : Host.statement { s with world := w' } k = some (c, j) := hk
      simp only [Host.step, hk', Option.bind_some, he', hr, Option.map_some, hresponse]
    refine ⟨List.replicate n (.advance k) ++ [.respond k], ({ s with world := w' } : State).put k
      { c with stage := .scanning, sent := c.sent ++ text }, ?_, ?_,
      .inl ⟨text, Function.update_self _ _ _⟩⟩
    · exact List.forall_mem_append.mpr
        ⟨hadvances, List.forall_mem_singleton.mpr (.inr (.inr rfl))⟩
    · rw [host_run_append, hadvanced]
      simp [Host.run, hrespond]

/-- The execution that a connection is in. -/
theorem Attends.execution {input : Bytes} {answered pending : List Nat}
    (h : Attends host w c input answered pending) (hstage : c.stage = .executing j) :
    ∃ e, w.executions j = some e := by
  obtain ⟨rfl, -⟩ := h.executing hstage
  obtain ⟨tokens, -, hasked⟩ := h.asked
  have hj : j ∈ answered ++ [j] := List.mem_append_right _ List.mem_cons_self
  obtain ⟨sql, -, hsql⟩ := List.mem_map.mp (hasked ▸ List.mem_map_of_mem hj)
  obtain ⟨e, he, -⟩ := Option.map_eq_some_iff.mp hsql.symm
  exact ⟨e, he⟩

def Drained (s : State) (k : Nat) (ended : Bool) : Prop :=
  ∃ c, s.connections k = some c ∧ c.stage = .scanning ∧ c.scanner.ended = ended ∧
    scanLines c.scanner.data ended = none

/-- The next line is taken out of the buffer, and the request in it is answered. -/
theorem line_taken {past : List NetEvent} {started : Nat → List Nat}
    (h : Attending host past started s) (hc : s.connections k = some c)
    (hstage : c.stage = .scanning) {line : Bytes} {scanner : LineScanner}
    (hscan : c.scanner.scan maxRequestSize = .line line scanner) :
    ∃ own s', (∀ e ∈ own, OwnWork k e) ∧ host.run s own = some s' ∧
      ((∃ sent, s'.connections k = some ⟨scanner, .scanning, sent⟩) ∨ Ends s' k scanner.ended) := by
  have hscanning : Host.scanning s k = some (c, .line line scanner) := by
    simp only [Host.scanning, hc, hstage, if_true, hscan]
  cases hrequest : request line with
  | none =>
    have hstep : host.step s (.scan k) = some (s.put k { c with scanner := scanner }) := by
      simp only [Host.step, hscanning, hrequest]
    refine ⟨[.scan k], s.put k { c with scanner := scanner },
      List.forall_mem_singleton.mpr (.inl rfl), ?_, .inl ⟨c.sent, ?_⟩⟩
    · rw [Host.run, hstep]
      rfl
    · rw [← hstage]
      exact Function.update_self _ _ _
  | some sql =>
    obtain ⟨m, hstep, hm⟩ : ∃ m, host.step s (.scan k) = some m ∧
        m.connections k = some ⟨scanner, .executing s.world.started, c.sent⟩ := by
      simp only [Host.step, hscanning, hrequest]
      exact ⟨_, rfl, Function.update_self _ _ _⟩
    have hnext := h.step hstep
    obtain ⟨answered, pending, hattends, -⟩ := hnext.attends hm
    obtain ⟨e, he⟩ := hattends.execution rfl
    obtain ⟨own, s', hown, hrun, hs'⟩ := statement_answered hnext.reaches hm rfl he
    refine ⟨.scan k :: own, s', List.forall_mem_cons.mpr ⟨.inl rfl, hown⟩, ?_, ?_⟩
    · rw [Host.run, hstep]
      exact hrun
    · rcases hs' with ⟨text, hs'⟩ | hends
      · exact .inl ⟨_, hs'⟩
      · exact .inr hends

/-- A connection can do with its own events all that it has read. -/
theorem connection_drains (n : Nat) : ∀ {past : List NetEvent} {started : Nat → List Nat}
    {s : State} {c : Connection}, Attending host past started s → s.connections k = some c →
    c.stage = .scanning → c.scanner.data.length ≤ n →
    ∃ own s', (∀ e ∈ own, OwnWork k e) ∧ host.run s own = some s' ∧
      (Drained s' k c.scanner.ended ∨ Ends s' k c.scanner.ended) := by
  induction n with
  | zero =>
    intro past started s c h hc hstage hdata
    refine ⟨[], s, nofun, rfl, .inl ⟨c, hc, hstage, rfl, ?_⟩⟩
    rw [List.length_eq_zero_iff.mp (Nat.le_zero.mp hdata)]
    simp [scanLines]
  | succ n ih =>
    intro past started s c h hc hstage hdata
    cases hlines : scanLines c.scanner.data c.scanner.ended with
    | none => exact ⟨[], s, nofun, rfl, .inl ⟨c, hc, hstage, rfl, hlines⟩⟩
    | some found =>
      obtain ⟨scanner, hscan⟩ : ∃ scanner, c.scanner.scan maxRequestSize = .line found.2 scanner :=
        LineScanner.scan_of_some hlines
      obtain ⟨hshorter, hended⟩ := LineScanner.scan_line hscan
      rw [← hended]
      obtain ⟨own, m, hown, hrun, ⟨sent, hm⟩ | hfatal⟩ := line_taken h hc hstage hscan
      · obtain ⟨own', s', hown', hrun', hend⟩ := ih (h.run hrun) hm rfl (by dsimp only; omega)
        refine ⟨own ++ own', s', List.forall_mem_append.mpr ⟨hown, hown'⟩, ?_, hend⟩
        rw [host_run_append, hrun]
        exact hrun'
      · exact ⟨own, m, hown, hrun, .inr hfatal⟩

theorem received_own {own : List NetEvent} (h : ∀ e ∈ own, OwnWork k e) (i : Nat) :
    received i own = [] := by
  refine List.flatMap_eq_nil_iff.mpr fun e he => ?_
  rcases h e he with rfl | rfl | rfl <;> rfl

theorem Attends.data_le {input : Bytes} {answered pending : List Nat}
    (h : Attends host w c input answered pending) : c.scanner.data.length ≤ maxRequestSize := by
  obtain ⟨tokens, hfollows, -⟩ := h.asked
  have hsize := hfollows.size_le
  have hfits := hfollows.fits
  omega

/-- What a connection has come to by its own events. -/
theorem Attending.outcome {events own : List NetEvent} (hrun : host.run .init events = some s)
    (hown : ∀ e ∈ own, OwnWork k e) (hrest : host.run s own = some s') {ended : Bool}
    (h : Drained s' k ended ∨ Ends s' k ended) :
    (∃ c answered, s'.connections k = some c ∧
        Transcript host s'.world c (received k events) answered [] ∧
        answered.map (sqlOf s'.world) = (requests (received k events) ended).map some) ∨
      ∃ c, s'.connections k = some c ∧
        ∃ sql ∈ requests (received k events) ended, Fatal s' c sql := by
  have hattending := (host_attends hrun).run hrest
  rcases h with ⟨c, hc, hstage, rfl, hnone⟩ | ⟨c, sql, hc, rfl, hfatal⟩
  · obtain ⟨answered, pending, hattends, -⟩ := hattending.attends hc
    rw [received_append, received_own hown, List.append_nil] at hattends
    obtain ⟨rfl, -⟩ := hattends.scanning hstage
    exact .inl ⟨c, answered, hc, hattends.transcript, hattends.transcript.complete rfl hnone⟩
  · obtain ⟨answered, pending, hattends, -⟩ := hattending.attends hc
    rw [received_append, received_own hown, List.append_nil] at hattends
    have hasked := hattends.transcript.asked
    have hfatal' := hfatal
    obtain ⟨j, e, message, hstage, he, rfl, -⟩ := hfatal'
    obtain ⟨rfl, -⟩ := hattends.executing hstage
    have hj : sqlOf s'.world j ∈ (answered ++ [j]).map (sqlOf s'.world) := by simp
    obtain ⟨sql, hsql, heq⟩ := List.mem_map.mp (hasked.subset hj)
    rw [sqlOf, he] at heq
    cases heq
    exact .inr ⟨c, hc, e.sql, hsql, hfatal⟩

/-- Whatever the other clients do or leave undone, a client can get the answers to
all requests that have arrived: the work of its own connection is enough, unless
one of them is a join that panics. -/
theorem requests_answerable {events : List NetEvent} (hrun : host.run .init events = some s)
    (hc : s.connections k = some c) (hopen : c.stage ≠ .closed) :
    ∃ own s', (∀ e ∈ own, OwnWork k e) ∧ host.run s own = some s' ∧
      ((∃ c' answered, s'.connections k = some c' ∧
          Transcript host s'.world c' (received k events) answered [] ∧
          answered.map (sqlOf s'.world) = (requests (received k events) c.scanner.ended).map some) ∨
        ∃ c', s'.connections k = some c' ∧
          ∃ sql ∈ requests (received k events) c.scanner.ended, Fatal s' c' sql) := by
  have hattending := host_attends hrun
  obtain ⟨answered, pending, hattends, -⟩ := hattending.attends hc
  -- what is left of the statement in hand comes first
  obtain ⟨own, m, hown, hfirst, hm⟩ : ∃ own m, (∀ e ∈ own, OwnWork k e) ∧ host.run s own = some m ∧
      ((∃ sent, m.connections k = some ⟨c.scanner, .scanning, sent⟩) ∨
        Ends m k c.scanner.ended) := by
    cases hstage : c.stage with
    | scanning =>
      refine ⟨[], s, nofun, rfl, .inl ⟨c.sent, ?_⟩⟩
      rw [hc, ← hstage]
    | executing j =>
      obtain ⟨e, he⟩ := hattends.execution hstage
      obtain ⟨own, m, hown, hfirst, hm⟩ := statement_answered hattending.reaches hc hstage he
      exact ⟨own, m, hown, hfirst, hm.imp_left fun ⟨text, hm⟩ => ⟨_, hm⟩⟩
    | closed => exact absurd hstage hopen
  rcases hm with ⟨sent, hm⟩ | hends
  · obtain ⟨own', s', hown', hrest, hlast⟩ :=
      connection_drains maxRequestSize (hattending.run hfirst) hm rfl hattends.data_le
    have hall : ∀ e ∈ own ++ own', OwnWork k e := List.forall_mem_append.mpr ⟨hown, hown'⟩
    have hwhole : host.run s (own ++ own') = some s' := by
      rw [host_run_append, hfirst]
      exact hrest
    exact ⟨_, s', hall, hwhole, Attending.outcome hrun hall hwhole hlast⟩
  · exact ⟨own, m, hown, hfirst, Attending.outcome hrun hown hfirst (.inr hends)⟩

/-- Two clients, both in the middle of an INSERT of the same row. -/
def twoInserts : List NetEvent :=
  [NetEvent.accept, .accept, .receive 0 (ascii "CREATE TABLE t (a INT PRIMARY KEY);\n"),
    .scan 0] ++ List.replicate 4 (NetEvent.advance 0) ++ [NetEvent.respond 0,
    .receive 0 (ascii "INSERT INTO t VALUES (1);\nSELECT * FROM t;\n"), .scan 0] ++
    List.replicate 4 (NetEvent.advance 0) ++
    [NetEvent.receive 1 (ascii "INSERT INTO t VALUES (1);\n"), .scan 1] ++
    List.replicate 3 (NetEvent.advance 1)

theorem requests_answerable_conflict : ∃ s own s' c' answered,
    plainHost.run .init twoInserts = some s ∧ (∀ e ∈ own, OwnWork 1 e) ∧
    plainHost.run s own = some s' ∧ s'.connections 1 = some c' ∧
    Transcript plainHost s'.world c' (received 1 twoInserts) answered [] ∧
    answered.map (sqlOf s'.world) = [some (ascii "INSERT INTO t VALUES (1);")] := by
  have hobserve : (plainHost.run .init twoInserts).bind (fun s => (s.connections 1).map fun c =>
      (c.stage, c.scanner.ended)) = some (.executing 2, false) := by decide +kernel
  have hrequests : requests (received 1 twoInserts) false =
      [ascii "INSERT INTO t VALUES (1);"] := by
    decide +kernel
  have hplan : (Session.plan (ascii "INSERT INTO t VALUES (1);")).toOption.map hasJoin =
      some false := by
    decide +kernel
  obtain ⟨s, hrun, hs⟩ := Option.bind_eq_some_iff.mp hobserve
  obtain ⟨c, hc, hs⟩ := Option.map_eq_some_iff.mp hs
  simp only [Prod.mk.injEq] at hs
  obtain ⟨hstage, hended⟩ := hs
  obtain ⟨own, s', hown, hrun',
    ⟨c', answered, hc', htranscript, hasked⟩ | ⟨c', -, sql, hsql, hfatal⟩⟩ :=
    requests_answerable hrun hc (by rw [hstage]; decide)
  · rw [hended, hrequests] at hasked
    exact ⟨s, own, s', c', answered, hrun, hown, hrun', hc', htranscript, hasked⟩
  · rw [hended, hrequests, List.mem_singleton] at hsql
    obtain ⟨j, e, message, -, -, -, -, node, hnode, hjoin, -⟩ := hfatal
    rw [hsql] at hnode
    rw [hnode] at hplan
    cases hjoin.symm.trans (Option.some.inj hplan)

end SpaceDB.Proofs
