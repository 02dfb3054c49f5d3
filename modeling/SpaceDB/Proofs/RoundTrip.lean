import SpaceDB.Proofs.ParsedStatements
import SpaceDB.Proofs.PrintedClauses

namespace SpaceDB.Proofs
open Lib Storage Sql ParserM Parser

def ColumnEnd (t : Token) : Prop := t.kind = .closeParen ∨ t.kind = .comma

theorem ColumnEnd.noCall {t : Token} (h : ColumnEnd t) : NoCall t := by
  rcases h with hkind | hkind <;> simp [NoCall, hkind]

theorem ColumnEnd.noKeyword {t : Token} (h : ColumnEnd t) : t.kind ≠ .keywordKind := by
  rcases h with hkind | hkind <;> simp [hkind]

/-- The constraint loop makes the column from the words, however much fuel is left. -/
def Constrains (c : ColumnDef) (ws : List Word) (d : ColumnDef) : Prop :=
  ∀ fuel, ws.length < fuel → Rereads (constraintLoop fuel c) ws d ColumnEnd

theorem constrains_nil (c : ColumnDef) : Constrains c [] c := by
  intro fuel hfuel
  obtain ⟨fuel, rfl⟩ := Nat.exists_eq_add_of_lt hfuel
  apply rereads_peek (leads_nil (fun t ht => ht))
  intro t ht
  rw [if_pos ht.noKeyword]
  exact reads_pure

theorem constrains_primaryKey (c : ColumnDef) (hc : c.primaryKey = false) (primaryKey : Bool) :
    Constrains c (primaryKeyWords primaryKey) { c with primaryKey := primaryKey } := by
  cases primaryKey with
  | false =>
    have hsame : { c with primaryKey := false } = c := by rw [← hc]
    rw [hsame]
    exact constrains_nil c
  | true =>
    intro fuel hfuel
    obtain ⟨fuel, rfl⟩ := Nat.exists_eq_add_of_le' (le_trans (Nat.le_add_left 1 _) hfuel)
    apply rereads_peek (P := (Word.keyword .keywordPrimary).Spells) (leads_word (fun o => ⟨o, rfl⟩))
    rintro t ⟨o, rfl⟩
    apply rereads_next (by simp [Word.token])
    intro _
    apply (expectKeyword_rereads _).cons
    exact constrains_nil _ fuel (by simp [primaryKeyWords] at hfuel; simp; omega)

theorem constrains_default {c d : ColumnDef} {ws : List Word} {o : Option Expression}
    (hc : c.defaultValue = none) (ho : Given Operand o)
    (hlead : Leads Word.Spells NoCall ws ColumnEnd)
    (h : Constrains { c with defaultValue := o } ws d) :
    Constrains c (optionalWords .keywordDefault operandWords o ++ ws) d := by
  cases o with
  | none =>
    rw [← hc] at h
    exact h
  | some e =>
    intro fuel hfuel
    obtain ⟨fuel, rfl⟩ := Nat.exists_eq_add_of_le' (le_trans (Nat.le_add_left 1 _) hfuel)
    apply rereads_peek (P := (Word.keyword .keywordDefault).Spells) (leads_word (fun o => ⟨o, rfl⟩))
    rintro t ⟨o, rfl⟩
    apply rereads_next (by simp [Word.token])
    intro _
    apply (parseExpression_rereads (ho e rfl)).bind hlead
    exact h fuel (by simp [optionalWords] at hfuel; omega)

theorem constrains_nullable {c d : ColumnDef} {ws : List Word} {nullable : Option Bool}
    (hc : c.nullable = none) (h : Constrains { c with nullable := nullable } ws d) :
    Constrains c (nullableWords nullable ++ ws) d := by
  cases nullable with
  | none =>
    rw [← hc] at h
    exact h
  | some b =>
    intro fuel hfuel
    obtain ⟨fuel, rfl⟩ := Nat.exists_eq_add_of_le' (le_trans (Nat.le_add_left 1 _) hfuel)
    cases b with
    | true =>
      apply rereads_peek (P := (Word.keyword .keywordNull).Spells) (leads_word (fun o => ⟨o, rfl⟩))
      rintro t ⟨o, rfl⟩
      apply rereads_next (by simp [Word.token])
      exact fun _ => h fuel (by simp [nullableWords] at hfuel; omega)
    | false =>
      apply rereads_peek (P := (Word.keyword .keywordNot).Spells) (leads_word (fun o => ⟨o, rfl⟩))
      rintro t ⟨o, rfl⟩
      apply rereads_next (by simp [Word.token])
      intro _
      apply (expectKeyword_rereads _).cons
      exact h fuel (by simp [nullableWords] at hfuel; omega)

/-- A printed column is read back. -/
theorem parseColumn_rereads {c : ColumnDef} (h : ColumnOk c) :
    Rereads parseColumn (columnWords c) c ColumnEnd := by
  obtain ⟨name, dataType, nullable, defaultValue, primaryKey⟩ := c
  have hprimary : Leads Word.Spells NoCall (primaryKeyWords primaryKey) ColumnEnd := by
    cases primaryKey with
    | false => exact leads_nil (fun t ht => ht.noCall)
    | true => exact leads_word (noCall_keyword _)
  have hloop : Constrains ⟨name, dataType, none, none, false⟩ (nullableWords nullable ++
      (optionalWords .keywordDefault operandWords defaultValue ++ primaryKeyWords primaryKey))
      ⟨name, dataType, nullable, defaultValue, primaryKey⟩ := by
    apply constrains_nullable rfl
    apply constrains_default rfl h.default hprimary
    exact constrains_primaryKey _ rfl primaryKey
  apply (expectIdentifier_rereads name).cons
  apply rereads_next (by simp [Word.token])
  intro o
  cases dataType <;> exact Reads.fuelled hloop

theorem parseCreateTable_rereads {s : CreateTableStatement} (hne : s.columns ≠ [])
    (h : ∀ c ∈ s.columns, ColumnOk c) :
    Rereads parseCreateTable (statementWords (.createTable s)) s (After 6) := by
  apply (expectKeyword_rereads _).cons
  apply (expectKeyword_rereads _).cons
  apply (expectIdentifier_rereads _).cons
  apply (expect_rereads (by decide)).cons
  have hcolumns := commaList_rereads (P := fun t => t.kind = .closeParen) hne
    (fun t ht => by simp [ht]) (fun c hc => parseColumn_rereads (h c hc))
  apply hcolumns.bind (leads_word (fun _ => rfl))
  exact (expect_rereads (by decide)).bind_pure _

theorem insertColumns_rereads (columns : List Bytes) :
    Rereads parseInsertColumns (insertColumnsWords columns) columns NoCall := by
  unfold insertColumnsWords
  split_ifs with hempty
  · subst hempty
    apply rereads_peek (leads_nil (fun t ht => ht))
    intro t ht
    rw [if_pos (show t.kind ≠ .openParen from ht)]
    exact reads_pure
  · apply rereads_peek (P := fun t => t.kind = .openParen) (leads_word (fun _ => rfl))
    intro t ht
    rw [if_neg (not_not.mpr ht)]
    apply rereads_next (by simp [Word.token])
    intro _
    exact parenthesised_rereads hempty (fun name _ => expectIdentifier_rereads name)

theorem parseInsert_rereads {s : InsertStatement} (hne : s.values ≠ [])
    (h : ∀ row ∈ s.values, row ≠ [] ∧ ∀ e ∈ row, Operand e) :
    Rereads parseInsert (statementWords (.insert s)) s (After 6) := by
  apply (expectKeyword_rereads _).cons
  apply (expectKeyword_rereads _).cons
  apply (expectIdentifier_rereads _).cons
  apply (insertColumns_rereads s.columns).bind (leads_word (noCall_keyword _))
  apply (expectKeyword_rereads _).cons
  apply Reads.bind_pure
  apply commaList_rereads hne (fun t ht => ht.noComma)
  intro row hrow
  obtain ⟨hrow, hoperands⟩ := h row hrow
  apply (expect_rereads (by decide)).cons
  exact parenthesised_rereads hrow (fun e he => parseExpression_rereads (hoperands e he))

/-- The assignments go into the map in the order in which they are written. -/
theorem assignmentLoop_rereads {es : List (Bytes × Expression)} (hne : es ≠ [])
    (hes : ∀ e ∈ es, Operand e.2) (hs : es.Pairwise (fun a b => a.1 < b.1))
    {m : OrderedMap Bytes Expression} (hfresh : ∀ e ∈ es, m.find? e.1 = none) {fuel : Nat}
    (hfuel : es.length ≤ fuel) :
    Rereads (assignmentLoop fuel m) (commaWords (es.map assignmentWords)) (m.insertAll es)
      (After 0) := by
  induction es generalizing m fuel with
  | nil => exact absurd rfl hne
  | cons e es ih =>
    obtain ⟨fuel, rfl⟩ := Nat.exists_eq_add_of_le' (le_trans (Nat.le_add_left 1 _) hfuel)
    obtain ⟨he, htail⟩ := List.forall_mem_cons.mp hes
    obtain ⟨hlt, hsorted⟩ := List.pairwise_cons.mp hs
    have hfree := hfresh e List.mem_cons_self
    simp only [List.map_cons, commaWords, assignmentWords, List.cons_append]
    apply rereads_peek (P := fun _ => True) (leads_word (fun _ => trivial))
    intro t _
    apply (expectIdentifier_rereads e.1).cons
    apply (expect_rereads (by decide)).cons
    simp only [hfree, Option.isSome_none, Bool.false_eq_true, if_false]
    cases es with
    | nil =>
      apply (parseExpression_rereads he).bind (leads_nil (fun t ht => ht.noCall))
      apply rereads_peek (leads_nil (fun t ht => ht))
      intro t ht
      rw [if_pos ht.noComma]
      exact reads_pure
    | cons d es =>
      apply (parseExpression_rereads he).bind (leads_word (noCall_symbol (by decide)))
      apply rereads_peek (P := fun t => t.kind = .comma) (leads_word (fun _ => rfl))
      intro t ht
      rw [if_neg (not_not.mpr ht)]
      apply rereads_next (by simp [Word.token])
      intro _
      refine ih (by simp) htail hsorted ?_ (by simp at hfuel ⊢; omega)
      intro c hc
      rw [OrderedMap.find?_insert, if_neg (ne_of_gt (hlt c hc))]
      exact hfresh c (List.mem_cons_of_mem _ hc)

theorem parseUpdate_rereads {s : UpdateStatement} (hne : s.assignments.entries ≠ [])
    (h : ∀ e ∈ s.assignments.entries, Identifier e.1 ∧ Operand e.2)
    (hfilter : Given Comparison s.filter) :
    Rereads parseUpdate (statementWords (.update s)) s (After 1) := by
  have hloop : Rereads (.fuelled (fun fuel => assignmentLoop fuel .empty))
      (commaWords (s.assignments.entries.map assignmentWords)) s.assignments (After 0) := by
    apply Reads.fuelled
    intro fuel hfuel
    have henough : s.assignments.entries.length ≤ fuel := by
      obtain ⟨e, es, hes⟩ := List.exists_cons_of_ne_nil hne
      have hlength := flatMap_comma_length (es.map assignmentWords)
      simp only [hes, List.map_cons, commaWords, List.length_append, List.length_map,
        List.length_cons] at hfuel hlength ⊢
      omega
    have hread := assignmentLoop_rereads hne (fun e he => (h e he).2) s.assignments.sorted
      (fun e _ => OrderedMap.find?_empty e.1) henough
    rwa [OrderedMap.insertAll_entries] at hread
  apply (expectKeyword_rereads _).cons
  apply (expectIdentifier_rereads _).cons
  apply (expectKeyword_rereads _).cons
  apply hloop.bind (leads_optional comparisonWords s.filter (by decide))
  exact (comparisonClause_rereads .keywordWhere hfilter).bind_pure _

theorem parseDelete_rereads {s : DeleteStatement} (hfilter : Given Comparison s.filter) :
    Rereads parseDelete (statementWords (.delete s)) s (After 1) := by
  apply (expectKeyword_rereads _).cons
  apply (expectKeyword_rereads _).cons
  apply (expectIdentifier_rereads _).cons
  exact (comparisonClause_rereads .keywordWhere hfilter).bind_pure _

/-- A printed statement is read back. -/
theorem parseStatement_rereads {s : Statement} (h : WellFormed s) :
    Rereads parseStatement (statementWords s) s (After 6) := by
  obtain ⟨hs, hcolumned⟩ := h
  -- the first keyword decides
  have hpeek : ∀ (k : Keyword) (ws : List Word) (f : Token → ParserM Statement),
      (∀ o, Rereads (f ((Word.keyword k).token o)) (.keyword k :: ws) s (After 6)) →
      Rereads (peek >>= f) (.keyword k :: ws) s (After 6) := by
    intro k ws f hf
    apply rereads_peek (P := (Word.keyword k).Spells) (leads_word (fun o => ⟨o, rfl⟩))
    rintro t ⟨o, rfl⟩
    exact hf o
  cases s with
  | select s => exact hpeek _ _ _ (fun _ => (parseSelect_rereads hs).bind_pure _)
  | createTable s =>
    exact hpeek _ _ _ (fun _ => (parseCreateTable_rereads hcolumned hs.2).bind_pure _)
  | insert s =>
    obtain ⟨-, -, hne, hvalues⟩ := hs
    exact hpeek _ _ _ (fun _ => (parseInsert_rereads hne hvalues).bind_pure _)
  | update s =>
    obtain ⟨-, hne, hassignments, hfilter⟩ := hs
    have hread := (parseUpdate_rereads hne hassignments hfilter).mono
      (fun t (ht : After 6 t) => ht.mono (by decide))
    exact hpeek _ _ _ (fun _ => hread.bind_pure _)
  | delete s =>
    have hread := (parseDelete_rereads hs.2).mono (fun t (ht : After 6 t) => ht.mono (by decide))
    exact hpeek _ _ _ (fun _ => hread.bind_pure _)

/-- A text whose tokens are the words of a statement stands for the statement. -/
theorem parse_spelled {s : Statement} (h : WellFormed s) {input : Bytes}
    {ts : List Token} {o o' : Nat}
    (hlex : lex input =
      .ok (ts ++ [(Word.symbol .semicolon).token o, (Word.symbol .endOfInput).token o']))
    (hts : List.Forall₂ Word.Spells (statementWords s) ts) : parse input = .ok s := by
  have hread := parseStatement_rereads h ts
    [(Word.symbol .semicolon).token o, (Word.symbol .endOfInput).token o'] hts
    ⟨_, _, rfl, (by decide : 6 < 7)⟩
  unfold parse
  rw [hlex]
  simp only [parseTokens, bind_apply hread]
  rfl

theorem parse_spaced (form : DecimalForm) {s : Statement} (h : WellFormed s) :
    parse (print form s) = .ok s := by
  obtain ⟨ts, o, hlex, hts⟩ := lex_spaced form (written_statement h.1)
  exact parse_spelled h hlex hts

/-- Parsing takes back what is printed, and what it returns can be printed. -/
theorem parse_print_inverse (form : DecimalForm) :
    (∀ s, WellFormed s → parse (print form s) = .ok s) ∧
      ∀ input s, parse input = .ok s → WellFormed s :=
  ⟨fun _ hs => parse_spaced form hs, fun _ _ hparse => wellFormed_of_parse hparse⟩

/-- A RIGHT JOIN and a float, which come back as they were read. -/
theorem parse_print_inverse_join : ∃ s,
    parse (ascii "SELECT a AS b FROM t RIGHT JOIN u ON x = y WHERE f > 0.5 LIMIT 3;") = .ok s ∧
      parse (print exactForm s) = .ok s := by
  have hparse : parse (ascii "SELECT a AS b FROM t RIGHT JOIN u ON x = y WHERE f > 0.5 LIMIT 3;") =
      .ok (.select ⟨.join (.table (ascii "t")) (.table (ascii "u")) .joinRight
          (some (.operation .operationEqual ⟨.columnReference, .string (ascii "y")⟩
            ⟨.columnReference, .string (ascii "x")⟩)),
        [⟨⟨.columnReference, .string (ascii "a")⟩, some (ascii "b")⟩],
        some (.operation .operationGreaterThan ⟨.columnReference, .string (ascii "f")⟩
          ⟨.floatLiteral, .float64 (.ofMagnitude false (1022 * 2 ^ 52))⟩),
        none, none, [], some ⟨.integerLiteral, .int64 ⟨3, by decide⟩⟩, none⟩) := by
    decide +kernel
  exact ⟨_, hparse, (parse_print_inverse exactForm).1 _
    ((parse_print_inverse exactForm).2 _ _ hparse)⟩

/-- A table without columns is among the described statements, and no text
stands for it. -/
theorem no_text_without_columns : Described (.createTable ⟨ascii "t", []⟩) ∧
    ∀ form, parse (print form (.createTable ⟨ascii "t", []⟩)) ≠
    .ok (.createTable ⟨ascii "t", []⟩) := by
  have hname : Identifier (ascii "t") :=
    ⟨⟨116, [], by decide, .inl (by decide), by simp⟩, by decide +kernel⟩
  refine ⟨⟨hname, by simp⟩, ?_⟩
  intro form hparse
  exact (wellFormed_of_parse hparse).2 rfl

end SpaceDB.Proofs
