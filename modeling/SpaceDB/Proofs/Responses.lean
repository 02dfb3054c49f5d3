import SpaceDB.Server.Connections
import SpaceDB.Proofs.StatementOrder

namespace SpaceDB.Proofs
open Lib Storage Sql Engine Server

variable {host : Host} {s s' : State} {w w' : World} {c : Connection} {input : Bytes}
  {answered pending : List Nat}

/-- Executions keep their texts, and stay as they are once they have returned. -/
structure Proceeds (w w' : World) : Prop where
  started : w.started ≤ w'.started
  kept : ∀ {j e}, w.executions j = some e → ∃ e', w'.executions j = some e' ∧ e'.sql = e.sql ∧
    (e.result.isSome → e' = e)

theorem proceeds_start {setting : Setting} (h : setting.Reaches w) (sql : Bytes) :
    Proceeds w (setting.start w sql) where
  started := Nat.le_succ _
  kept := by
    intro j e he
    refine ⟨e, ?_, rfl, fun _ => rfl⟩
    change Function.update _ _ _ _ = _
    rw [Function.update_of_ne (reaches_started h he).ne]
    exact he

/-- A call of one statement changes no other. -/
theorem proceeds_advance {setting : Setting} {j : Nat}
    (h : setting.step w (.advance j) = some w') : Proceeds w w' := by
  simp only [Setting.step] at h
  split at h
  next sql handle c next hj =>
    cases h
    refine ⟨le_rfl, fun {i e} he => ?_⟩
    by_cases hij : i = j
    · subst hij
      rw [hj] at he
      cases he
      exact ⟨_, Function.update_self _ _ _, rfl, fun hr => absurd hr (by simp [Execution.result])⟩
    · exact ⟨e, (Function.update_of_ne hij _ _).trans he, rfl, fun _ => rfl⟩
  next => cases h

def sqlOf (w : World) (j : Nat) : Option Bytes := (w.executions j).map Execution.sql

theorem Proceeds.sqlOf {j : Nat} {sql : Bytes} (h : Proceeds w w')
    (hsql : sqlOf w j = some sql) : sqlOf w' j = some sql := by
  obtain ⟨e, he, rfl⟩ := Option.map_eq_some_iff.mp hsql
  obtain ⟨e', he', hsame, -⟩ := h.kept he
  exact Option.map_eq_some_iff.mpr ⟨e', he', hsame⟩

theorem reply_some {j : Nat} {text : Bytes} (h : host.reply w j = some text) :
    ∃ e r, w.executions j = some e ∧ e.result = some r ∧ response host.texts r = some text := by
  obtain ⟨r, hr, htext⟩ := Option.bind_eq_some_iff.mp h
  obtain ⟨e, he, hr⟩ := Option.bind_eq_some_iff.mp hr
  exact ⟨e, r, he, hr, htext⟩

theorem Proceeds.reply {j : Nat} {text : Bytes} (h : Proceeds w w')
    (hreply : host.reply w j = some text) : host.reply w' j = some text := by
  obtain ⟨e, r, he, hr, htext⟩ := reply_some hreply
  obtain ⟨e', he', -, hsame⟩ := h.kept he
  rw [hsame (by rw [hr]; rfl)] at he'
  simp [Host.reply, he', hr, htext]

def ReturnedBefore (setting : Setting) (w : World) (i j : Nat) : Prop :=
  ∃ w₀ events e, setting.Reaches w₀ ∧ setting.run w₀ events = some w ∧ w₀.started ≤ j ∧
    w₀.executions i = some e ∧ w.executions i = some e ∧ e.result.isSome

theorem ReturnedBefore.step {setting : Setting} {i j : Nat} {event : Event}
    (h : ReturnedBefore setting w i j)
    (hstep : setting.step w event = some w') (hw : Proceeds w w') :
    ReturnedBefore setting w' i j := by
  obtain ⟨w₀, events, e, hreach, hrun, hj, he, hsame, hr⟩ := h
  obtain ⟨e', he', -, hkept⟩ := hw.kept hsame
  rw [hkept hr] at he'
  refine ⟨w₀, events ++ [event], e, hreach, ?_, hj, he, he', hr⟩
  rw [run_world_append, hrun]
  simp [Setting.run, hstep]

/-- All that was written to a client: the responses of the statements that are
answered, and maybe a part of the next one when that could not be written. -/
def Wrote (host : Host) (w : World) (c : Connection) (answered pending : List Nat) : Prop :=
  let responses := (answered.filterMap (host.reply w)).flatten
  match c.stage with
  | .scanning => pending = [] ∧ c.sent = responses
  | .executing j => pending = [j] ∧ c.sent = responses
  | .closed => pending = [] ∧ c.sent = responses ∨
      ∃ j text n, pending = [j] ∧ host.reply w j = some text ∧ c.sent = responses ++ text.take n

/-- What holds of a connection that has read `input`: the statements of its first
requests were executed one after the other, all but the last are answered. -/
structure Attends (host : Host) (w : World) (c : Connection) (input : Bytes)
    (answered pending : List Nat) : Prop where
  asked : ∃ tokens, c.scanner.Follows maxRequestSize tokens input ∧
    (answered ++ pending).map (sqlOf w) = (tokens.filterMap request).map some
  ordered : (answered ++ pending).Pairwise (ReturnedBefore host.setting w)
  replied : ∀ j ∈ answered, (host.reply w j).isSome
  wrote : Wrote host w c answered pending

theorem replies_kept (hw : Proceeds w w') (h : ∀ j ∈ answered, (host.reply w j).isSome) :
    answered.filterMap (host.reply w') = answered.filterMap (host.reply w) := by
  refine List.filterMap_congr fun j hj => ?_
  obtain ⟨text, htext⟩ := Option.isSome_iff_exists.mp (h j hj)
  rw [htext, hw.reply htext]

theorem Wrote.frame (h : Wrote host w c answered pending) (hw : Proceeds w w')
    (hreplied : ∀ j ∈ answered, (host.reply w j).isSome) : Wrote host w' c answered pending := by
  unfold Wrote at h ⊢
  rw [replies_kept hw hreplied]
  cases hstage : c.stage with
  | scanning | executing j => simpa only [hstage] using h
  | closed =>
    simp only [hstage] at h ⊢
    refine h.imp_right fun ⟨j, text, n, hpending, hreply, hsent⟩ => ?_
    exact ⟨j, text, n, hpending, hw.reply hreply, hsent⟩

/-- What other connections do, and the calls of its own statement. -/
theorem Attends.frame {event : Event} (h : Attends host w c input answered pending)
    (hstep : host.setting.step w event = some w') (hw : Proceeds w w') :
    Attends host w' c input answered pending := by
  obtain ⟨⟨tokens, hfollows, hasked⟩, hordered, hreplied, hwrote⟩ := h
  refine ⟨⟨tokens, hfollows, ?_⟩, hordered.imp fun hij => hij.step hstep hw, fun j hj => ?_,
    hwrote.frame hw hreplied⟩
  · rw [← hasked]
    refine List.map_congr_left fun j hj => ?_
    obtain ⟨sql, -, hsql⟩ := List.mem_map.mp (hasked ▸ List.mem_map_of_mem hj)
    rw [← hsql]
    exact hw.sqlOf hsql.symm
  · obtain ⟨text, htext⟩ := Option.isSome_iff_exists.mp (hreplied j hj)
    exact Option.isSome_iff_exists.mpr ⟨text, hw.reply htext⟩

theorem attends_new (host : Host) (w : World) : Attends host w .new [] [] [] where
  asked := ⟨[], .new (by decide), rfl⟩
  ordered := .nil
  replied := nofun
  wrote := ⟨rfl, rfl⟩

section Scanning
variable {scanner : LineScanner} {line : Bytes}

theorem Attends.scanning (h : Attends host w c input answered pending)
    (hstage : c.stage = .scanning) :
    pending = [] ∧ c.sent = (answered.filterMap (host.reply w)).flatten := by
  have hwrote := h.wrote
  simp only [Wrote, hstage] at hwrote
  exact hwrote

theorem Attends.blank (h : Attends host w c input answered pending)
    (hscan : c.scanner.scan maxRequestSize = .line line scanner) (hblank : request line = none) :
    Attends host w { c with scanner := scanner } input answered pending := by
  obtain ⟨tokens, hfollows, hasked⟩ := h.asked
  exact ⟨⟨_, hfollows.line hscan, by simp [hasked, hblank]⟩, h.ordered, h.replied, h.wrote⟩

/-- A request is executed with the next number. -/
theorem Attends.request {sql : Bytes} (h : Attends host w c input answered pending)
    (hstage : c.stage = .scanning) (hreach : host.setting.Reaches w)
    (hscan : c.scanner.scan maxRequestSize = .line line scanner) (hsql : request line = some sql) :
    Attends host (host.setting.start w sql)
      { c with scanner := scanner, stage := .executing w.started } input answered [w.started] := by
  obtain ⟨rfl, hsent⟩ := h.scanning hstage
  have hw := proceeds_start hreach sql
  have hstart : host.setting.step w (.start sql) = some (host.setting.start w sql) := rfl
  have hframe := h.frame hstart hw
  obtain ⟨tokens, hfollows, hasked⟩ := hframe.asked
  rw [List.append_nil] at hasked
  refine ⟨⟨_, hfollows.line hscan, ?_⟩, ?_, hframe.replied, rfl, ?_⟩
  · rw [List.map_append, hasked, List.filterMap_append, List.map_append]
    have hnew : sqlOf (host.setting.start w sql) w.started = some sql := by
      simp [sqlOf, Setting.start]
    simp [hnew, hsql]
  · have hordered := hframe.ordered
    rw [List.append_nil] at hordered
    refine List.pairwise_append.mpr ⟨hordered, List.pairwise_singleton _ _, fun i hi j hj => ?_⟩
    rw [List.mem_singleton.mp hj]
    obtain ⟨text, htext⟩ := Option.isSome_iff_exists.mp (h.replied i hi)
    obtain ⟨e, r, he, hr, -⟩ := reply_some htext
    have hreturned : e.result.isSome := by rw [hr]; rfl
    obtain ⟨e', he', -, hsame⟩ := hw.kept he
    rw [hsame hreturned] at he'
    exact ⟨w, [.start sql], e, hreach, rfl, le_rfl, he, he', hreturned⟩
  · rw [replies_kept hw h.replied]
    exact hsent

theorem Attends.stop (h : Attends host w c input answered pending) (hstage : c.stage = .scanning) :
    Attends host w { c with stage := .closed } input answered pending := by
  have hwrote := h.scanning hstage
  exact ⟨h.asked, h.ordered, h.replied, .inl hwrote⟩

theorem Attends.receive {chunk : Bytes} (h : Attends host w c input answered pending)
    (hscan : c.scanner.scan maxRequestSize = .more scanner)
    (hroom : scanner.start + scanner.data.length + chunk.length ≤ scanner.size) :
    Attends host w { c with scanner := scanner.fill chunk } (input ++ chunk) answered pending := by
  obtain ⟨tokens, hfollows, hasked⟩ := h.asked
  obtain ⟨hmore, hended, -⟩ := hfollows.more hscan
  exact ⟨⟨tokens, hmore.fill hended hroom, hasked⟩, h.ordered, h.replied, h.wrote⟩

theorem Attends.hangup (h : Attends host w c input answered pending)
    (hscan : c.scanner.scan maxRequestSize = .more scanner) :
    Attends host w { c with scanner := scanner.close } input answered pending := by
  obtain ⟨tokens, hfollows, hasked⟩ := h.asked
  obtain ⟨hmore, -, hroom⟩ := hfollows.more hscan
  exact ⟨⟨tokens, hmore.close hroom, hasked⟩, h.ordered, h.replied, h.wrote⟩

end Scanning

section Executing
variable {j : Nat} {text : Bytes}

theorem Attends.executing (h : Attends host w c input answered pending)
    (hstage : c.stage = .executing j) :
    pending = [j] ∧ c.sent = (answered.filterMap (host.reply w)).flatten := by
  have hwrote := h.wrote
  simp only [Wrote, hstage] at hwrote
  exact hwrote

/-- The response completes the statement in hand. -/
theorem Attends.respond (h : Attends host w c input answered pending)
    (hstage : c.stage = .executing j) (hreply : host.reply w j = some text) :
    Attends host w { c with stage := .scanning, sent := c.sent ++ text } input
      (answered ++ [j]) [] := by
  obtain ⟨rfl, hsent⟩ := h.executing hstage
  refine ⟨by simpa using h.asked, by simpa using h.ordered, ?_, rfl, ?_⟩
  · intro i hi
    rcases List.mem_append.mp hi with hi | hi
    · exact h.replied i hi
    · rw [List.mem_singleton.mp hi, hreply]
      rfl
  · simp [hsent, hreply]

theorem Attends.fail (h : Attends host w c input answered pending)
    (hstage : c.stage = .executing j) (hreply : host.reply w j = some text) (n : Nat) :
    Attends host w { c with stage := .closed, sent := c.sent ++ text.take n } input
      answered pending := by
  obtain ⟨rfl, hsent⟩ := h.executing hstage
  refine ⟨h.asked, h.ordered, h.replied, .inr ⟨j, text, n, rfl, hreply, ?_⟩⟩
  simp [hsent]

end Executing

/-- What holds of a server after the events `past`, in which connection `k` has
started the statements `own k`. -/
structure Attending (host : Host) (past : List NetEvent) (own : Nat → List Nat) (s : State) :
    Prop where
  reaches : host.setting.Reaches s.world
  fresh : ∀ {k}, s.accepted ≤ k → s.connections k = none ∧ received k past = [] ∧ own k = []
  attends : ∀ {k c}, s.connections k = some c → ∃ answered pending,
    Attends host s.world c (received k past) answered pending ∧ answered ++ pending = own k

theorem received_append (k : Nat) (past events : List NetEvent) :
    received k (past ++ events) = received k past ++ received k events := by
  simp [received]

theorem attending_init (host : Host) : Attending host [] (fun _ => []) .init where
  reaches := ⟨[], rfl⟩
  fresh := fun _ => ⟨rfl, rfl, rfl⟩
  attends := nofun

def LivesOn (setting : Setting) (w w' : World) : Prop :=
  w' = w ∨ ∃ event, setting.step w event = some w' ∧ Proceeds w w'

theorem Attends.pass (h : Attends host w c input answered pending)
    (hw : LivesOn host.setting w w') : Attends host w' c input answered pending := by
  rcases hw with rfl | ⟨event, hstep, hw⟩
  · exact h
  · exact h.frame hstep hw

theorem reaches_step {setting : Setting} {event : Event} (h : setting.Reaches w)
    (hstep : setting.step w event = some w') : setting.Reaches w' := by
  have hrun : setting.run w [event] = some w' := by simp [Setting.run, hstep]
  exact reaches_run h hrun

theorem LivesOn.reaches {setting : Setting} (h : LivesOn setting w w')
    (hreach : setting.Reaches w) :
    setting.Reaches w' := by
  rcases h with rfl | ⟨event, hstep, -⟩
  · exact hreach
  · exact reaches_step hreach hstep

section Steps
variable {past : List NetEvent} {own : Nat → List Nat} {e : NetEvent} {k : Nat}

/-- One connection goes on, and may start a statement. -/
theorem Attending.put {c' : Connection} {own' : Nat → List Nat} (h : Attending host past own s)
    (hc : s.connections k = some c) (hw : LivesOn host.setting s.world w')
    (hothers : ∀ i, i ≠ k → received i [e] = [] ∧ own' i = own i)
    (hown : ∀ {answered pending}, Attends host s.world c (received k past) answered pending →
      answered ++ pending = own k → ∃ answered' pending',
        Attends host w' c' (received k past ++ received k [e]) answered' pending' ∧
          answered' ++ pending' = own' k) :
    Attending host (past ++ [e]) own' { s.put k c' with world := w' } := by
  refine ⟨hw.reaches h.reaches, fun {i} hi => ?_, fun {i d} hd => ?_⟩
  · obtain ⟨hnone, hreceived, howns⟩ := h.fresh hi
    have hik : i ≠ k := by
      intro hik
      rw [hik, hc] at hnone
      cases hnone
    refine ⟨(Function.update_of_ne hik _ _).trans hnone, ?_, (hothers i hik).2.trans howns⟩
    rw [received_append, hreceived, (hothers i hik).1]
    rfl
  · change Function.update _ _ _ _ = _ at hd
    rw [received_append]
    by_cases hik : i = k
    · subst hik
      rw [Function.update_self] at hd
      cases hd
      obtain ⟨answered, pending, hattends, howns⟩ := h.attends hc
      exact hown hattends howns
    · rw [Function.update_of_ne hik] at hd
      obtain ⟨answered, pending, hattends, howns⟩ := h.attends hd
      rw [(hothers i hik).1, (hothers i hik).2, List.append_nil]
      exact ⟨answered, pending, hattends.pass hw, howns⟩

/-- The process is gone, and the connections with it. -/
theorem Attending.gone (h : Attending host past own s) (hw : host.setting.Reaches w')
    (hnothing : ∀ i, received i [e] = []) :
    Attending host (past ++ [e]) own { s with world := w', connections := fun _ => none } where
  reaches := hw
  fresh := by
    intro i hi
    obtain ⟨-, hreceived, howns⟩ := h.fresh hi
    refine ⟨rfl, ?_, howns⟩
    rw [received_append, hreceived, hnothing]
    rfl
  attends := nofun

theorem scanning_some {r : Scanned} (h : Host.scanning s k = some (c, r)) :
    s.connections k = some c ∧ c.stage = .scanning ∧ c.scanner.scan maxRequestSize = r := by
  unfold Host.scanning at h
  split at h
  next d hd =>
    split_ifs at h with hstage
    cases h
    exact ⟨hd, hstage, rfl⟩
  next => cases h

theorem statement_some {j : Nat} (h : Host.statement s k = some (c, j)) :
    s.connections k = some c ∧ c.stage = .executing j := by
  unfold Host.statement at h
  split at h
  next d hd =>
    split at h
    next hstage =>
      cases h
      exact ⟨hd, hstage⟩
    next => cases h
  next => cases h

theorem Attending.accept (h : Attending host past own s) :
    Attending host (past ++ [.accept]) own
      { s.put s.accepted .new with accepted := s.accepted + 1 } := by
  have hnothing : ∀ i, received i [NetEvent.accept] = [] := fun _ => rfl
  refine ⟨h.reaches, fun {i} hi => ?_, fun {i d} hd => ?_⟩
  · change s.accepted + 1 ≤ i at hi
    obtain ⟨hnone, hreceived, howns⟩ := h.fresh (Nat.le_of_succ_le hi)
    refine ⟨(Function.update_of_ne (by omega) _ _).trans hnone, ?_, howns⟩
    rw [received_append, hreceived, hnothing]
    rfl
  · change Function.update _ _ _ _ = _ at hd
    rw [received_append, hnothing, List.append_nil]
    by_cases hi : i = s.accepted
    · subst hi
      rw [Function.update_self] at hd
      cases hd
      obtain ⟨-, hreceived, howns⟩ := h.fresh le_rfl
      rw [hreceived, howns]
      exact ⟨[], [], attends_new host s.world, rfl⟩
    · rw [Function.update_of_ne hi] at hd
      exact h.attends hd

/-- A step of one connection that starts no statement. -/
theorem Attending.goes_on {c' : Connection} (h : Attending host past own s)
    (hc : s.connections k = some c) (hothers : ∀ i, i ≠ k → received i [e] = [])
    (hown : ∀ {answered pending}, Attends host s.world c (received k past) answered pending →
      ∃ answered' pending', Attends host s.world c' (received k past ++ received k [e])
        answered' pending' ∧ answered' ++ pending' = answered ++ pending) :
    Attending host (past ++ [e]) own (s.put k c') := by
  refine h.put hc (.inl rfl) (fun i hi => ⟨hothers i hi, rfl⟩) fun hattends howns => ?_
  rw [← howns]
  exact hown hattends

/-- A scan starts a statement, passes over a blank line, or ends the connection. -/
theorem Attending.scan (h : Attending host past own s) (hstep : host.step s (.scan k) = some s') :
    Attending host (past ++ [.scan k]) (fun i => own i ++ newStatement i s s' (.scan k)) s' := by
  have hnothing : ∀ i, received i [NetEvent.scan k] = [] := fun _ => rfl
  have hsame : ∀ {c'}, (fun i => own i ++ newStatement i s (s.put k c') (.scan k)) = own := by
    intro c'
    funext i
    simp [newStatement, State.put]
  simp only [Host.step] at hstep
  split at hstep
  next c line scanner hscanning =>
    obtain ⟨hc, hstage, hscan⟩ := scanning_some hscanning
    split at hstep
    next sql hsql =>
      cases hstep
      refine h.put hc (.inr ⟨.start sql, rfl, proceeds_start h.reaches sql⟩)
        (fun i hi => ⟨hnothing i, by simp [newStatement, Ne.symm hi]⟩) fun hattends howns => ?_
      obtain ⟨rfl, -⟩ := hattends.scanning hstage
      rw [List.append_nil] at howns
      rw [hnothing, List.append_nil]
      refine ⟨_, _, hattends.request hstage h.reaches hscan hsql, ?_⟩
      simp [howns, newStatement, Setting.start]
    next hblank =>
      cases hstep
      rw [hsame]
      refine h.goes_on hc (fun i _ => hnothing i) fun hattends => ?_
      rw [hnothing, List.append_nil]
      exact ⟨_, _, hattends.blank hscan hblank, rfl⟩
  next c tooLong hscanning =>
    obtain ⟨hc, hstage, -⟩ := scanning_some hscanning
    cases hstep
    rw [hsame]
    refine h.goes_on hc (fun i _ => hnothing i) fun hattends => ?_
    rw [hnothing, List.append_nil]
    exact ⟨_, _, hattends.stop hstage, rfl⟩
  next => cases hstep

/-- More of the stream arrives. -/
theorem Attending.receive {chunk : Bytes} (h : Attending host past own s)
    (hstep : host.step s (.receive k chunk) = some s') :
    Attending host (past ++ [.receive k chunk]) own s' := by
  simp only [Host.step] at hstep
  split at hstep
  next c scanner hscanning =>
    obtain ⟨hc, -, hscan⟩ := scanning_some hscanning
    split_ifs at hstep with hroom
    cases hstep
    refine h.goes_on hc (fun i hi => ?_) fun hattends => ?_
    · simp [received, Ne.symm hi]
    · have hchunk : received k [.receive k chunk] = chunk := by simp [received]
      rw [hchunk]
      exact ⟨_, _, hattends.receive hscan hroom.2, rfl⟩
  next => cases hstep

theorem Attending.hangup (h : Attending host past own s)
    (hstep : host.step s (.hangup k) = some s') : Attending host (past ++ [.hangup k]) own s' := by
  have hnothing : ∀ i, received i [NetEvent.hangup k] = [] := fun _ => rfl
  simp only [Host.step] at hstep
  split at hstep
  next c scanner hscanning =>
    obtain ⟨hc, -, hscan⟩ := scanning_some hscanning
    cases hstep
    refine h.goes_on hc (fun i _ => hnothing i) fun hattends => ?_
    rw [hnothing, List.append_nil]
    exact ⟨_, _, hattends.hangup hscan, rfl⟩
  next => cases hstep

theorem Attending.advance (h : Attending host past own s)
    (hstep : host.step s (.advance k) = some s') :
    Attending host (past ++ [.advance k]) own s' := by
  have hnothing : ∀ i, received i [NetEvent.advance k] = [] := fun _ => rfl
  obtain ⟨⟨c, j⟩, hstatement, hstep⟩ := Option.bind_eq_some_iff.mp hstep
  obtain ⟨w, hadvance, rfl⟩ := Option.map_eq_some_iff.mp hstep
  have hw : LivesOn host.setting s.world w := .inr ⟨_, hadvance, proceeds_advance hadvance⟩
  refine ⟨hw.reaches h.reaches, fun {i} hi => ?_, fun {i d} hd => ?_⟩
  · rw [received_append, hnothing, List.append_nil]
    exact h.fresh hi
  · obtain ⟨answered, pending, hattends, howns⟩ := h.attends hd
    rw [received_append, hnothing, List.append_nil]
    exact ⟨answered, pending, hattends.pass hw, howns⟩

/-- A response is written; after a panic there is no process any more. -/
theorem Attending.respond (h : Attending host past own s)
    (hstep : host.step s (.respond k) = some s') :
    Attending host (past ++ [.respond k]) own s' := by
  have hnothing : ∀ i, received i [NetEvent.respond k] = [] := fun _ => rfl
  obtain ⟨⟨c, j⟩, hstatement, hstep⟩ := Option.bind_eq_some_iff.mp hstep
  obtain ⟨hc, hstage⟩ := statement_some hstatement
  obtain ⟨r, hr, rfl⟩ := Option.map_eq_some_iff.mp hstep
  split
  next text htext =>
    refine h.goes_on hc (fun i _ => hnothing i) fun hattends => ?_
    have hreply : host.reply s.world j = some text := by simp [Host.reply, hr, htext]
    obtain ⟨rfl, -⟩ := hattends.executing hstage
    rw [hnothing, List.append_nil]
    exact ⟨_, _, hattends.respond hstage hreply, List.append_nil _⟩
  next => exact h.gone h.reaches hnothing

theorem Attending.fail {n : Nat} (h : Attending host past own s)
    (hstep : host.step s (.fail k n) = some s') : Attending host (past ++ [.fail k n]) own s' := by
  have hnothing : ∀ i, received i [NetEvent.fail k n] = [] := fun _ => rfl
  obtain ⟨⟨c, j⟩, hstatement, hstep⟩ := Option.bind_eq_some_iff.mp hstep
  obtain ⟨hc, hstage⟩ := statement_some hstatement
  obtain ⟨text, hreply, rfl⟩ := Option.map_eq_some_iff.mp hstep
  refine h.goes_on hc (fun i _ => hnothing i) fun hattends => ?_
  rw [hnothing, List.append_nil]
  exact ⟨_, _, hattends.fail hstage hreply n, rfl⟩

/-- One event of the server. -/
theorem Attending.step (h : Attending host past own s) (hstep : host.step s e = some s') :
    Attending host (past ++ [e]) (fun i => own i ++ newStatement i s s' e) s' := by
  -- only a scan starts statements
  have hquiet : (∀ i, newStatement i s s' e = []) → Attending host (past ++ [e]) own s' →
      Attending host (past ++ [e]) (fun i => own i ++ newStatement i s s' e) s' := by
    intro hnone hnext
    simpa only [hnone, List.append_nil] using hnext
  cases e with
  | accept =>
    cases hstep
    exact hquiet (fun _ => rfl) h.accept
  | scan k => exact h.scan hstep
  | receive k chunk => exact hquiet (fun _ => rfl) (h.receive hstep)
  | hangup k => exact hquiet (fun _ => rfl) (h.hangup hstep)
  | advance k => exact hquiet (fun _ => rfl) (h.advance hstep)
  | respond k => exact hquiet (fun _ => rfl) (h.respond hstep)
  | fail k n => exact hquiet (fun _ => rfl) (h.fail hstep)
  | crash k calls =>
    obtain ⟨⟨c, j⟩, -, hstep⟩ := Option.bind_eq_some_iff.mp hstep
    obtain ⟨w, hcrash, rfl⟩ := Option.map_eq_some_iff.mp hstep
    exact hquiet (fun _ => rfl) (h.gone (reaches_step h.reaches hcrash) fun _ => rfl)
  | restart =>
    cases hstep
    exact hquiet (fun _ => rfl) (h.gone h.reaches fun _ => rfl)

theorem statements_cons {events : List NetEvent} (hstep : host.step s e = some s') (i : Nat) :
    statements host i s (e :: events) = newStatement i s s' e ++ statements host i s' events := by
  rw [statements, hstep]

/-- The same of a whole run. -/
theorem Attending.run {events : List NetEvent} (h : Attending host past own s)
    (hrun : host.run s events = some s') :
    Attending host (past ++ events) (fun i => own i ++ statements host i s events) s' := by
  induction events generalizing past own s with
  | nil =>
    cases hrun
    simpa [statements] using h
  | cons e events ih =>
    obtain ⟨m, hstep, hrest⟩ := Option.bind_eq_some_iff.mp hrun
    have hnext := ih (h.step hstep) hrest
    simp only [statements_cons hstep]
    simpa using hnext

end Steps

theorem host_attends {events : List NetEvent} (hrun : host.run .init events = some s) :
    Attending host events (fun i => statements host i .init events) s := by
  simpa using (attending_init host).run hrun

theorem world_started_le {setting : Setting} {event : Event}
    (h : setting.step w event = some w') : w.started ≤ w'.started := by
  cases event with
  | start sql =>
    cases h
    exact Nat.le_succ _
  | advance j => exact (proceeds_advance h).started
  | crash j calls =>
    simp only [Setting.step] at h
    split at h
    · obtain ⟨r, -, rfl⟩ := Option.map_eq_some_iff.mp h
      exact le_rfl
    · cases h

theorem step_started_le {e : NetEvent} (hstep : host.step s e = some s') :
    s.world.started ≤ s'.world.started := by
  cases e with
  | accept | restart =>
    cases hstep
    exact le_rfl
  | scan k =>
    simp only [Host.step] at hstep
    split at hstep
    · split at hstep <;> cases hstep
      · exact Nat.le_succ _
      · exact le_rfl
    · cases hstep
      exact le_rfl
    · cases hstep
  | receive k chunk =>
    simp only [Host.step] at hstep
    split at hstep
    · split_ifs at hstep
      cases hstep
      exact le_rfl
    · cases hstep
  | hangup k =>
    simp only [Host.step] at hstep
    split at hstep <;> cases hstep
    exact le_rfl
  | advance k | crash k calls =>
    obtain ⟨_, -, hstep⟩ := Option.bind_eq_some_iff.mp hstep
    obtain ⟨w, hworld, rfl⟩ := Option.map_eq_some_iff.mp hstep
    exact world_started_le hworld
  | respond k =>
    obtain ⟨_, -, hstep⟩ := Option.bind_eq_some_iff.mp hstep
    obtain ⟨r, -, rfl⟩ := Option.map_eq_some_iff.mp hstep
    split <;> exact le_rfl
  | fail k n =>
    obtain ⟨_, -, hstep⟩ := Option.bind_eq_some_iff.mp hstep
    obtain ⟨text, -, rfl⟩ := Option.map_eq_some_iff.mp hstep
    exact le_rfl

theorem mem_newStatement {e : NetEvent} {k j : Nat} (h : j ∈ newStatement k s s' e) :
    e = .scan k ∧ j = s.world.started ∧ s.world.started < s'.world.started := by
  cases e with
  | scan i =>
    simp only [newStatement] at h
    split_ifs at h with hi
    · exact ⟨congrArg _ hi.1, List.mem_singleton.mp h, hi.2⟩
    · cases h
  | _ => cases h

theorem started_le_of_mem {events : List NetEvent} {k j : Nat}
    (hj : j ∈ statements host k s events) : s.world.started ≤ j := by
  induction events generalizing s with
  | nil => cases hj
  | cons e events ih =>
    cases hstep : host.step s e with
    | none =>
      rw [statements, hstep] at hj
      cases hj
    | some m =>
      rw [statements_cons hstep] at hj
      rcases List.mem_append.mp hj with hnew | hlater
      · exact (mem_newStatement hnew).2.1.ge
      · exact (step_started_le hstep).trans (ih hlater)

/-- No statement belongs to two connections. -/
theorem statements_disjoint {events : List NetEvent} {i k : Nat} (hik : i ≠ k) :
    List.Disjoint (statements host i s events) (statements host k s events) := by
  induction events generalizing s with
  | nil => exact List.disjoint_nil_left _
  | cons e events ih =>
    cases hstep : host.step s e with
    | none =>
      rw [statements, hstep]
      exact List.disjoint_nil_left _
    | some m =>
      rw [statements_cons hstep, statements_cons hstep]
      intro j hi hk
      -- the new number is smaller than all that come later
      have hlater : ∀ {a b}, j ∈ newStatement a s m e → j ∈ statements host b m events → False := by
        intro a b hnew hrest
        obtain ⟨-, rfl, hlt⟩ := mem_newStatement hnew
        exact absurd (started_le_of_mem hrest) (not_le.mpr hlt)
      rcases List.mem_append.mp hi with hi | hi <;> rcases List.mem_append.mp hk with hk | hk
      · obtain ⟨rfl, -⟩ := mem_newStatement hi
        exact hik (NetEvent.scan.inj (mem_newStatement hk).1)
      · exact hlater hi hk
      · exact hlater hk hi
      · exact ih hi hk

/-- The conversation with a client that has sent `input`: its first requests, in
their order and each once, and the responses of those that are answered. -/
structure Transcript (host : Host) (w : World) (c : Connection) (input : Bytes)
    (answered pending : List Nat) : Prop where
  ordered : (answered ++ pending).Pairwise (· < ·)
  asked : (answered ++ pending).map (sqlOf w) <+: (requests input c.scanner.ended).map some
  replied : ∀ j ∈ answered, (host.reply w j).isSome
  wrote : Wrote host w c answered pending
  /-- When there is no line left in the buffer, every request is answered. -/
  complete : pending = [] → scanLines c.scanner.data c.scanner.ended = none →
    answered.map (sqlOf w) = (requests input c.scanner.ended).map some

theorem ReturnedBefore.lt {setting : Setting} {i j : Nat} (h : ReturnedBefore setting w i j) :
    i < j := by
  obtain ⟨w₀, -, e, hreach, -, hj, he, -⟩ := h
  exact (reaches_started hreach he).trans_le hj

theorem Attends.transcript (h : Attends host w c input answered pending) :
    Transcript host w c input answered pending := by
  obtain ⟨⟨tokens, hfollows, hasked⟩, hordered, hreplied, hwrote⟩ := h
  refine ⟨hordered.imp ReturnedBefore.lt, ?_, hreplied, hwrote, fun hpending hnone => ?_⟩
  · rw [hasked]
    exact (hfollows.isPrefix.filterMap _).map _
  · rw [hpending, List.append_nil] at hasked
    rw [hasked, requests, ← hfollows.complete hnone]

/-- Every client is answered in the order of its requests, whatever the other
clients do: no response is lost, doubled or given to another client, and how the
bytes were cut into reads does not matter. -/
theorem responses_in_order {events : List NetEvent} {k : Nat}
    (hrun : host.run .init events = some s) (hc : s.connections k = some c) :
    host.setting.Reaches s.world ∧ ∃ answered pending,
      Transcript host s.world c (received k events) answered pending ∧
      answered ++ pending = statements host k .init events ∧
      ∀ i, i ≠ k → List.Disjoint (answered ++ pending) (statements host i .init events) := by
  have hattending := host_attends hrun
  obtain ⟨answered, pending, hattends, howns⟩ := hattending.attends hc
  refine ⟨hattending.reaches, answered, pending, hattends.transcript, howns, fun i hi => ?_⟩
  rw [howns]
  exact statements_disjoint (Ne.symm hi)

def plainHost : Host := ⟨serialSetting, ⟨fun _ => ascii "float", fun _ => ascii "error"⟩⟩

/-- Two clients. The first sends three requests in two pieces, not cut at the ends
of lines, and no newline after the last; the second one's request comes between. -/
def twoClients : List NetEvent :=
  [NetEvent.accept, .accept, .receive 0 (ascii "CREATE TABLE t (a INT PRIMARY KEY);\r\nINS"),
    .scan 0] ++ List.replicate 4 (NetEvent.advance 0) ++ [NetEvent.respond 0,
    .receive 0 (ascii "ERT INTO t VALUES (1);\n \nSELECT * FROM t;"), .scan 0, .advance 0,
    .receive 1 (ascii "SELECT * FROM t;\n"), .scan 1] ++ List.replicate 4 (NetEvent.advance 1) ++
    List.replicate 5 (NetEvent.advance 0) ++
    [NetEvent.respond 0, .respond 1, .scan 0, .hangup 0, .scan 0] ++
    List.replicate 4 (NetEvent.advance 0) ++ [NetEvent.respond 0]

theorem twoClients_run : ∃ s c, plainHost.run .init twoClients = some s ∧ s.connections 0 = some c ∧
    c.sent = ascii "CREATE TABLE t\nINSERT 1 rows\na\n1\n(1 rows)\n" ∧ s.world.sys.begins = 4 := by
  have hobserve : (plainHost.run .init twoClients).bind (fun s => (s.connections 0).map fun c =>
      (c.sent, s.world.sys.begins)) =
      some (ascii "CREATE TABLE t\nINSERT 1 rows\na\n1\n(1 rows)\n", 4) := by decide +kernel
  obtain ⟨s, hrun, hs⟩ := Option.bind_eq_some_iff.mp hobserve
  obtain ⟨c, hc, hs⟩ := Option.map_eq_some_iff.mp hs
  exact ⟨s, c, hrun, hc, congrArg Prod.fst hs, congrArg Prod.snd hs⟩

theorem responses_in_order_two_clients : ∃ s c answered pending,
    plainHost.run .init twoClients = some s ∧ s.connections 0 = some c ∧
    c.sent = ascii "CREATE TABLE t\nINSERT 1 rows\na\n1\n(1 rows)\n" ∧
    Transcript plainHost s.world c (received 0 twoClients) answered pending ∧
    answered ++ pending = [0, 1, 3] ∧ statements plainHost 1 .init twoClients = [2] := by
  have hown : statements plainHost 0 .init twoClients = [0, 1, 3] ∧
      statements plainHost 1 .init twoClients = [2] := by decide +kernel
  obtain ⟨s, c, hrun, hc, hsent, -⟩ := twoClients_run
  obtain ⟨-, answered, pending, htranscript, howns, -⟩ := responses_in_order hrun hc
  exact ⟨s, c, answered, pending, hrun, hc, hsent, htranscript, howns.trans hown.1, hown.2⟩

/-- The transaction of statement `j` has the one of statement `i` in its snapshot,
and all that that one has. -/
def Sees (w : World) (i j : Nat) : Prop :=
  ∀ e e' result t t' x x', w.executions i = some e → e.result = some (.ok result) →
    e.handle = some t → w.sys.txns t = some x → w.executions j = some e' → e'.handle = some t' →
    w.sys.txns t' = some x' → x.seen <+: x'.seen ∧ t ∈ x'.seen

/-- A transaction keeps its snapshot. -/
theorem world_snapshot {setting : Setting} {events : List Event} {t : Nat} {x : Txn}
    (hrun : setting.run w events = some w') (ht : t < w.sys.begins) (hx : w.sys.txns t = some x) :
    ∃ x', w'.sys.txns t = some x' ∧ x'.seen = x.seen := by
  refine (world_induction (P := fun m => t < m.sys.begins ∧
    ∃ x', m.sys.txns t = some x' ∧ x'.seen = x.seen) ?_ ⟨ht, x, hx, rfl⟩ hrun).2
  intro m m' hold heffect
  obtain ⟨hlt, y, hy, hseen⟩ := hold
  refine ⟨hlt.trans_le heffect.begins_le, ?_⟩
  rcases heffect.sys_step with hsame | ⟨st, r, -, hstep⟩
  · rw [hsame]
    exact ⟨y, hy, hseen⟩
  · obtain ⟨y', hy', hsame⟩ := step_snapshot hlt hy hstep
    exact ⟨y', hy', hsame.2.trans hseen⟩

/-- A statement that starts after another has returned sees its commit. -/
theorem ReturnedBefore.sees {setting : Setting} {i j : Nat} (h : ReturnedBefore setting w i j)
    (hb : w.sys.begins < 2 ^ 64 - 1) : Sees w i j := by
  obtain ⟨w₀, events, e, hreach, hrun, hj, he₀, hsame, -⟩ := h
  intro e' d result t t' x x' he hr ht hx hd ht' hx'
  cases hsame.symm.trans he
  have hle := run_world_begins_le hrun
  have hinv := reaches_inv hreach (by omega)
  obtain ⟨y, hy, hstatus, -⟩ := reaches_returned hreach (by omega) he₀ hr ht
  obtain ⟨z, hz, hseen⟩ := world_snapshot hrun (hinv.bound hy) hy
  rw [hx] at hz
  cases hz
  obtain ⟨y', hy', hsees⟩ := Aware.run hreach hrun hb (reaches_started hreach) j d t' hj hd ht'
  rw [hx'] at hy'
  cases hy'
  rw [hseen]
  exact ⟨(hinv.seen hy).trans hsees, hsees.subset (hinv.committed.mpr ⟨y, hy, hstatus⟩)⟩

/-- The requests of one client are executed one after the other, and see what the
earlier ones have committed, also when the client does not wait for the
responses. -/
theorem pipelined_requests_see {events : List NetEvent} {k : Nat}
    (hrun : host.run .init events = some s) (hb : s.world.sys.begins < 2 ^ 64 - 1)
    (hc : s.connections k = some c) : ∃ answered pending,
      Transcript host s.world c (received k events) answered pending ∧
      (answered ++ pending).Pairwise fun i j =>
        ReturnedBefore host.setting s.world i j ∧ Sees s.world i j := by
  obtain ⟨answered, pending, hattends, -⟩ := (host_attends hrun).attends hc
  exact ⟨answered, pending, hattends.transcript, hattends.ordered.imp fun h => ⟨h, h.sees hb⟩⟩

theorem pipelined_requests_see_insert : ∃ s c answered pending,
    plainHost.run .init twoClients = some s ∧ s.connections 0 = some c ∧
    Transcript plainHost s.world c (received 0 twoClients) answered pending ∧
    (answered ++ pending).Pairwise fun i j =>
      ReturnedBefore plainHost.setting s.world i j ∧ Sees s.world i j := by
  obtain ⟨s, c, hrun, hc, -, hbegins⟩ := twoClients_run
  obtain ⟨answered, pending, htranscript, hsees⟩ := pipelined_requests_see hrun (by omega) hc
  exact ⟨s, c, answered, pending, hrun, hc, htranscript, hsees⟩

end SpaceDB.Proofs
