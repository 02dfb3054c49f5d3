import SpaceDB.Proofs.StatementTexts
import SpaceDB.Proofs.Responses

namespace SpaceDB.Proofs
open Lib Storage Sql Engine Server

section Requests
variable {text more line : Bytes} {statement statement' : Statement}

/-- Two beginnings of one text that are accepted are the same statement. -/
theorem parse_beginnings {a b : Bytes} (ha : a <+: text) (hb : b <+: text)
    (hparse : parse a = .ok statement) (hparse' : parse b = .ok statement') :
    statement = statement' := by
  rcases List.prefix_or_prefix_of_prefix ha hb with ⟨rest, rfl⟩ | ⟨rest, rfl⟩
  · exact (parse_beginning hparse' hparse).1
  · exact (parse_beginning hparse hparse').1.symm

def trimLeft (text : Bytes) : Bytes := strip spaces text.length text

/-- What is trimmed at the end is space. -/
theorem trimSpace_eq (text : Bytes) : ∃ parts : List Bytes, (∀ part ∈ parts, part ∈ spaces) ∧
    trimLeft text = trimSpace text ++ parts.flatten := by
  obtain ⟨parts, hparts, htext⟩ :=
    strip_eq (spaces.map List.reverse) (trimLeft text).length (trimLeft text).reverse
  refine ⟨(parts.map List.reverse).reverse, fun part hpart => ?_, ?_⟩
  · obtain ⟨part, hmem, rfl⟩ := List.mem_map.mp (List.mem_reverse.mp hpart)
    obtain ⟨space, hspace, rfl⟩ := List.mem_map.mp (hparts part hmem)
    rwa [List.reverse_reverse]
  · rw [← List.reverse_flatten]
    rw [List.reverse_eq_iff, List.reverse_append] at htext
    exact htext

theorem trimSpace_begins (text : Bytes) : trimSpace text <+: trimLeft text := by
  obtain ⟨parts, -, htext⟩ := trimSpace_eq text
  exact ⟨parts.flatten, htext.symm⟩

theorem no_empty_space : [] ∉ spaces := by decide +kernel

theorem trimLeft_done (text : Bytes) : ∀ space ∈ spaces, ¬ space <+: trimLeft text :=
  stripOne_none.mp (stripOne_strip no_empty_space le_rfl)

theorem trimLeft_blank (h : trimSpace text = []) : trimLeft text = [] := by
  obtain ⟨parts, hparts, htext⟩ := trimSpace_eq text
  rw [h, List.nil_append] at htext
  cases parts with
  | nil => exact htext
  | cons part parts =>
    refine absurd ?_ (trimLeft_done text part (hparts part List.mem_cons_self))
    rw [htext]
    exact List.prefix_append _ _

/-- A byte that begins no token. -/
theorem lex_refused {b : Byte} (hspace : isSpace b = false) (hquote : b ≠ 39)
    (hdigit : isDigit b = false)
    (hstart : isIdentifierStart b = false) (hsymbol : Lexer.symbolKind b = none) (text : Bytes) :
    ∃ e, lex (b :: text) = .error e := by
  unfold lex Lexer.tokenizeAll Lexer.next Lexer.skipWhitespace
  simp [hspace, Lexer.skip, Lexer.scan, hquote, hdigit, hstart, Lexer.scanSymbol, hsymbol, fault]

/-- No statement begins like a space that is encoded in several bytes. -/
theorem head_of_accepted {b : Byte} (h : parse (b :: text) = .ok statement)
    (hdone : ∀ space ∈ spaces, ¬ space <+: b :: more) : ∀ space ∈ spaces, space.head? ≠ some b := by
  have hspaces : ∀ space ∈ spaces, ∀ b ∈ space.head?, space = [b] ∨ isSpace b = false ∧ b ≠ 39 ∧
      isDigit b = false ∧ isIdentifierStart b = false ∧
      Lexer.symbolKind b = none := by decide +kernel
  intro space hmem hhead
  rcases hspaces space hmem b hhead with rfl | ⟨hspace, hquote, hdigit, hstart, hsymbol⟩
  · exact hdone [b] hmem ⟨more, rfl⟩
  · obtain ⟨e, he⟩ := lex_refused hspace hquote hdigit hstart hsymbol text
    rw [parse, he] at h
    cases h

/-- What an accepted request keeps of its line. -/
theorem trimLeft_append (h : parse (trimSpace text) = .ok statement) (more : Bytes) :
    trimLeft (text ++ more) = trimLeft text ++ more := by
  have hfree : ∀ a ∈ spaces, ∀ b ∈ spaces, a <+: b → a = b := by decide +kernel
  have hbegins := trimSpace_begins text
  cases hsql : trimSpace text with
  | nil =>
    rw [hsql] at h
    cases h
  | cons b sql =>
    rw [hsql] at h hbegins
    obtain ⟨tail, htail⟩ := hbegins
    have hkept : strip spaces text.length text = b :: (sql ++ tail) := htail.symm
    have hdone := trimLeft_done text
    unfold trimLeft at hdone ⊢
    rw [hkept] at hdone
    rw [strip_append hfree no_empty_space le_rfl le_rfl hkept (head_of_accepted h hdone), hkept]

/-- The request of a line that has been cut is the statement of the whole line,
when both are accepted. -/
theorem request_cut {cut : Bytes} (h : parse (trimSpace cut) = .ok statement)
    (hline : parse (trimSpace (cut ++ more)) = .ok statement') : statement = statement' := by
  have hbegins := trimSpace_begins (cut ++ more)
  rw [trimLeft_append h] at hbegins
  exact parse_beginnings ((trimSpace_begins cut).trans (List.prefix_append _ _)) hbegins h hline

theorem dropCR_begins (line : Bytes) : dropCR line <+: line := by
  unfold dropCR
  split_ifs
  · exact List.dropLast_prefix line
  · exact List.prefix_rfl

/-- A line that is cut loses nothing in front. -/
theorem dropCR_cut (cut more : Bytes) : dropCR cut <+: dropCR (cut ++ more) := by
  cases more using List.reverseRecOn with
  | nil => rw [List.append_nil]
  | append_singleton more b =>
    refine (dropCR_begins cut).trans ?_
    unfold dropCR
    rw [← List.append_assoc]
    split_ifs
    · rw [List.dropLast_concat]
      exact List.prefix_append _ _
    · rw [List.append_assoc]
      exact List.prefix_append _ _

theorem request_some {sql : Bytes} (h : request line = some sql) :
    sql = trimSpace line ∧ sql ≠ [] := by
  unfold request at h
  dsimp only at h
  split_ifs at h with hblank
  cases h
  exact ⟨rfl, hblank⟩

/-- A line has a request where a beginning of it has one that is accepted. -/
theorem request_of_cut {sql : Bytes} (h : request line = some sql)
    (hparse : parse sql = .ok statement)
    (more : Bytes) : request (line ++ more) = some (trimSpace (line ++ more)) := by
  obtain ⟨rfl, hne⟩ := request_some h
  refine if_neg fun hblank => hne ?_
  have hleft := trimLeft_blank hblank
  rw [trimLeft_append hparse, List.append_eq_nil_iff] at hleft
  have hbegins := trimSpace_begins line
  rwa [hleft.1, List.prefix_nil] at hbegins

end Requests

/-- The requests `sqls` of a client that stopped somewhere in sending `all`: they
are whole ones, and maybe the beginning of the next. The beginning of a statement is
refused or says all of it. -/
def Interrupted (sqls all : List Bytes) : Prop :=
  ∃ (whole : List Bytes) (cut : Option Bytes), sqls = whole ++ cut.toList ∧ whole <+: all ∧
    ∀ sql ∈ cut, ∀ next ∈ all[whole.length]?, ∀ statement statement',
      parse sql = .ok statement → parse next = .ok statement' → statement = statement'

theorem Interrupted.sooner {sqls sqls' all : List Bytes} (h : Interrupted sqls all)
    (hle : sqls' <+: sqls) :
    Interrupted sqls' all := by
  obtain ⟨whole, cut, rfl, hwhole, hcut⟩ := h
  cases cut with
  | none => exact ⟨sqls', none,
    by simp, (by simpa using hle : sqls' <+: whole).trans hwhole, by simp⟩
  | some sql =>
    rcases List.prefix_concat_iff.mp hle with rfl | hle
    · exact ⟨whole, some sql, rfl, hwhole, hcut⟩
    · exact ⟨sqls', none, by simp, hle.trans hwhole, by simp⟩

def requestsOf (lines : List Bytes) : List Bytes :=
  ((lines.takeWhile fun line => line.length < maxRequestSize).map dropCR).filterMap request

theorem requestsOf_append {lines : List Bytes} (h : ∀ line ∈ lines, line.length < maxRequestSize)
    (more : List Bytes) : requestsOf (lines ++ more) = requestsOf lines ++ requestsOf more := by
  have hlines : lines.takeWhile (fun line => line.length < maxRequestSize) = lines :=
    List.takeWhile_eq_self_iff.mpr (by simpa using h)
  unfold requestsOf
  rw [List.takeWhile_append_of_pos (by simpa using h), hlines, List.map_append,
    List.filterMap_append]

theorem requestsOf_stopped {lines : List Bytes} (h : ¬ ∀ line ∈ lines, line.length < maxRequestSize)
    (more : List Bytes) : requestsOf (lines ++ more) = requestsOf lines := by
  unfold requestsOf
  rw [List.takeWhile_append, if_neg]
  intro hlength
  have hall := List.takeWhile_eq_self_iff.mp ((List.takeWhile_sublist _).eq_of_length hlength)
  exact h (by simpa using hall)

theorem requestsOf_cons {line : Bytes} (h : line.length < maxRequestSize) (lines : List Bytes) :
    requestsOf (line :: lines) = (request (dropCR line)).toList ++ requestsOf lines := by
  unfold requestsOf
  rw [List.takeWhile_cons_of_pos (by simpa using h), List.map_cons, List.filterMap_cons]
  cases request (dropCR line) <;> rfl

theorem requestsOf_long {line : Bytes} (h : ¬ line.length < maxRequestSize) (lines : List Bytes) :
    requestsOf (line :: lines) = [] := by
  unfold requestsOf
  rw [List.takeWhile_cons_of_neg (by simpa using h)]
  rfl

/-- The line that was cut off, against the one that the client meant. -/
theorem requestsOf_cut {cut sql next : Bytes} {lines : List Bytes}
    {statement statement' : Statement}
    (hcut : ∀ line ∈ lines.head?, cut <+: line) (hsql : request (dropCR cut) = some sql)
    (hnext : (requestsOf lines).head? = some next) (hparse : parse sql = .ok statement)
    (hparse' : parse next = .ok statement') : statement = statement' := by
  cases lines with
  | nil => cases hnext
  | cons line lines =>
    obtain ⟨more, rfl⟩ := hcut line rfl
    obtain ⟨more', hmore⟩ := dropCR_cut cut more
    by_cases hshort : (cut ++ more).length < maxRequestSize
    · rw [requestsOf_cons hshort, ← hmore, request_of_cut hsql hparse] at hnext
      cases hnext
      obtain ⟨rfl, -⟩ := request_some hsql
      exact request_cut hparse hparse'
    · rw [requestsOf_long hshort] at hnext
      cases hnext

/-- The requests in the part of a stream that has arrived. -/
theorem requests_interrupted (got lost : Bytes) (ended : Bool) :
    Interrupted (requests got ended) (requests (got ++ lost) true) := by
  obtain ⟨-, hfree, -⟩ := cutLines_eq got
  have hall : requests (got ++ lost) true = requestsOf (allLines (got ++ lost) true) := rfl
  have hgot : requests got ended = requestsOf ((cutLines got).1 ++
      if ended = true ∧ (cutLines got).2 ≠ [] then [(cutLines got).2] else []) := by
    change requestsOf (allLines got ended) = _
    rw [allLines]
    split_ifs <;> simp
  rw [hall, allLines_append, hgot]
  by_cases hshort : ∀ line ∈ (cutLines got).1, line.length < maxRequestSize
  · rw [requestsOf_append hshort, requestsOf_append hshort]
    by_cases hcut : (ended = true ∧ (cutLines got).2 ≠ []) ∧
      (cutLines got).2.length < maxRequestSize
    · refine ⟨_, request (dropCR (cutLines got).2), ?_, List.prefix_append _ _, ?_⟩
      · rw [if_pos hcut.1, requestsOf_cons hcut.2]
        exact congrArg _ (List.append_nil _)
      · intro sql hsql next hnext statement statement'
        rw [List.getElem?_append_right le_rfl, Nat.sub_self, ← List.head?_eq_getElem?] at hnext
        exact requestsOf_cut (fun line hline => allLines_begins hfree lost hline) hsql hnext
    · refine ⟨_, none, ?_, List.prefix_append _ _, by simp⟩
      split_ifs with hended
      · rw [requestsOf_long (fun hlength => hcut ⟨hended, hlength⟩)]
        rfl
      · rfl
  · rw [requestsOf_stopped hshort, requestsOf_stopped hshort]
    exact ⟨_, none, by simp, List.prefix_rfl, by simp⟩

section Connections
variable {host : Host} {s : State} {c : Connection}

/-- A client that is gone before all it has to say has arrived. The server executes
the first requests of it and nothing else: when it accepts the one that was cut off,
the rest of that one would have said nothing more. -/
theorem interrupted_client {events : List NetEvent} {k : Nat}
    (hrun : host.run .init events = some s)
    (hc : s.connections k = some c) (lost : Bytes) : ∃ answered pending sqls,
      Transcript host s.world c (received k events) answered pending ∧
      (answered ++ pending).map (sqlOf s.world) = sqls.map some ∧
      Interrupted sqls (requests (received k events ++ lost) true) := by
  obtain ⟨answered, pending, hattends, -⟩ := (host_attends hrun).attends hc
  obtain ⟨tokens, hfollows, hasked⟩ := hattends.asked
  exact ⟨answered, pending, _, hattends.transcript, hasked,
    (requests_interrupted _ _ _).sooner (hfollows.isPrefix.filterMap _)⟩

def cutDelete : List NetEvent :=
  [NetEvent.accept, .receive 0 (ascii "CREATE TABLE t (a INT PRIMARY KEY);\nDELETE FROM t"),
    .scan 0] ++ List.replicate 4 (NetEvent.advance 0) ++
    [NetEvent.respond 0, .hangup 0, .scan 0, .respond 0]

theorem interrupted_client_delete : ∃ s c answered pending sqls,
    plainHost.run .init cutDelete = some s ∧ s.connections 0 = some c ∧
    c.sent = ascii "CREATE TABLE t\nERROR: error\n" ∧
    Transcript plainHost s.world c (received 0 cutDelete) answered pending ∧
    (answered ++ pending).map (sqlOf s.world) = sqls.map some ∧
    Interrupted sqls (requests (received 0 cutDelete ++ ascii " WHERE a = 1;\n") true) := by
  have hobserve : (plainHost.run .init cutDelete).bind
      (fun s => (s.connections 0).map fun c => c.sent) =
      some (ascii "CREATE TABLE t\nERROR: error\n") := by decide +kernel
  obtain ⟨s, hrun, hs⟩ := Option.bind_eq_some_iff.mp hobserve
  obtain ⟨c, hc, hsent⟩ := Option.map_eq_some_iff.mp hs
  obtain ⟨answered, pending, sqls, h⟩ := interrupted_client hrun hc (ascii " WHERE a = 1;\n")
  exact ⟨s, c, answered, pending, sqls, hrun, hc, hsent, h⟩

end Connections

end SpaceDB.Proofs
