import SpaceDB.Proofs.ParsedStatements
import SpaceDB.Proofs.TwinParses

namespace SpaceDB.Proofs
open Lib Storage Sql ParserM Parser

section Tokens
variable {tokens ts us front after after' : List Token} {t semi last last' : Token} {n : Nat}
  {statement : Statement}

theorem next_apply (t : Token) (rest : List Token) :
    next (t :: rest) = .ok (t, if t.kind = .endOfInput then t :: rest else rest) := rfl

theorem expect_apply {kind : Kind} (h : t.kind = kind) (rest : List Token) :
    expect kind (t :: rest) = .ok ((), if kind = .endOfInput then t :: rest else rest) := by
  unfold expect
  rw [bind_apply (next_apply t rest), if_neg (not_not.mpr h), h]
  rfl

theorem expect_refused {kind : Kind} (h : t.kind ≠ kind) (rest : List Token) :
    ∃ e, expect kind (t :: rest) = .error e := by
  unfold expect
  rw [bind_apply (next_apply t rest), if_pos h]
  exact ⟨_, rfl⟩

theorem expect_ok {kind : Kind} {u : Unit} {rest : List Token}
    (h : expect kind ts = .ok (u, rest)) :
    ∃ t tail, ts = t :: tail ∧ t.kind = kind := by
  cases ts with
  | nil => cases h
  | cons t tail =>
    refine ⟨t, tail, rfl, ?_⟩
    by_contra hkind
    obtain ⟨e, he⟩ := expect_refused hkind tail
    rw [he] at h
    cases h

/-- Up to the semicolon, and behind it at the end, only the positions differ. -/
theorem parseTokens_abreast (h : Abreast [last] [last'] n ts us) (hlast : last.kind = .endOfInput)
    (hlast' : last'.kind = .endOfInput) :
    (∃ e e', parseTokens ts = .error e ∧ parseTokens us = .error e') ∨
      ∃ s, parseTokens ts = .ok (s, [last]) ∧ parseTokens us = .ok (s, [last']) := by
  unfold parseTokens
  rcases parseStatement_together ts us h with
    ⟨e, e', hts, hus⟩ | ⟨s, _, ts', us', hts, hus, rfl, hrest⟩
  · exact .inl ⟨e, e', bind_error hts _, bind_error hus _⟩
  · rw [bind_apply hts, bind_apply hus]
    cases hrest with
    | @stop _ semi offset kind =>
      right
      have hmoved : (movedTo semi offset).kind = .semicolon := kind
      rw [bind_apply (expect_apply kind _), bind_apply (expect_apply hmoved _)]
      simp only [reduceCtorEq, if_false]
      rw [bind_apply (expect_apply hlast _), bind_apply (expect_apply hlast' _)]
      exact ⟨s, rfl, rfl⟩
    | @token _ u offset ts us kind inside rest =>
      have hmoved : (movedTo u offset).kind ≠ .semicolon := kind
      obtain ⟨e, he⟩ := expect_refused kind ts
      obtain ⟨e', he'⟩ := expect_refused hmoved us
      exact .inl ⟨e, e', bind_error he _, bind_error he' _⟩

theorem abreast_same (hfront : ∀ t ∈ front, t.kind ≠ .semicolon ∧ t.kind ≠ .endOfInput)
    (hsemi : semi.kind = .semicolon) :
    Abreast after after' front.length (front ++ semi :: after) (front ++ semi :: after') := by
  induction front with
  | nil =>
    change Abreast _ _ _ (semi :: after) (movedTo semi semi.offset :: after')
    exact .stop hsemi
  | cons t front ih =>
    obtain ⟨ht, hfront⟩ := List.forall_mem_cons.mp hfront
    change Abreast _ _ _ (t :: (front ++ semi :: after))
      (movedTo t t.offset :: (front ++ semi :: after'))
    exact .token ht.1 ht.2 (ih hfront)

/-- A statement ends with its first semicolon, and there the input ends. -/
structure OneStatement (tokens front : List Token) (semi last : Token) : Prop where
  split : tokens = front ++ [semi, last]
  semi : semi.kind = .semicolon
  last : last.kind = .endOfInput
  front : ∀ t ∈ front, t.kind ≠ .semicolon ∧ t.kind ≠ .endOfInput

/-- The first semicolon is not the end of the input. -/
theorem Lexed.first (h : Lexed (front ++ semi :: after)) (hsemi : semi.kind = .semicolon) :
    ∃ middle last, after = middle ++ [last] ∧ last.kind = .endOfInput ∧
      (∀ t ∈ front, t.kind ≠ .endOfInput) ∧ ∀ t ∈ middle, t.kind ≠ .endOfInput := by
  obtain ⟨before, last, hsplit, hlast, hbefore⟩ := h.ends
  rcases List.eq_nil_or_concat' after with rfl | ⟨middle, last', rfl⟩
  · have hend := (List.append_inj' hsplit rfl).2
    rw [(List.cons.inj hend).1, hlast] at hsemi
    cases hsemi
  · rw [← List.cons_append, ← List.append_assoc] at hsplit
    obtain ⟨rfl, hend⟩ := List.append_inj' hsplit rfl
    rw [← (List.cons.inj hend).1] at hlast
    refine ⟨middle, last', rfl, hlast, fun t ht => hbefore t ?_, fun t ht => hbefore t ?_⟩
    · exact List.mem_append_left _ ht
    · exact List.mem_append_right _ (List.mem_cons_of_mem _ ht)

/-- A text that is accepted has one semicolon, and it is the last token. -/
theorem single_of_parse {rest : List Token} (hlexed : Lexed tokens)
    (h : parseTokens tokens = .ok (statement, rest)) :
    ∃ front semi last, OneStatement tokens front semi last := by
  unfold parseTokens at h
  obtain ⟨s, ts, hstatement, h⟩ := bind_ok h
  obtain ⟨_, ts', hsemi, h⟩ := bind_ok h
  obtain ⟨_, ts'', hend, -⟩ := bind_ok h
  -- The semicolon that is expected is one of the tokens, so that there is a first one.
  have hleft := parseStatement_safe tokens (Lexed.left hlexed)
  rw [hstatement] at hleft
  obtain ⟨u, tail, rfl, hu⟩ := expect_ok hsemi
  have hmem : u ∈ tokens := hleft.2.rest.subset List.mem_cons_self
  cases hfind : tokens.find? (fun t => decide (t.kind = .semicolon)) with
  | none => exact absurd (List.find?_eq_none.mp hfind u hmem) (by simp [hu])
  | some semi =>
    obtain ⟨hkind, front, after, rfl, hfirst⟩ := List.find?_eq_some_iff_append.mp hfind
    simp only [decide_eq_true_eq] at hkind
    obtain ⟨middle, last, rfl, hlast, hfront, hmiddle⟩ := hlexed.first hkind
    have hplain : ∀ t ∈ front, t.kind ≠ .semicolon ∧ t.kind ≠ .endOfInput :=
      fun t ht => ⟨by simpa using hfirst t ht, hfront t ht⟩
    -- The statement stops at the first semicolon, and the input ends behind it.
    have hsame : Abreast (middle ++ [last]) (middle ++ [last]) _ _ _ := abreast_same hplain hkind
    rcases parseStatement_together _ _ hsame with
      ⟨e, -, he, -⟩ | ⟨_, _, _, _, hts, -, -, hrest⟩
    · rw [hstatement] at he
      cases he
    · rw [hstatement] at hts
      cases hts
      generalize front.length = n at hrest
      cases hrest with
      | token kind _ _ => exact absurd hu kind
      | stop _ =>
        rw [expect_apply hu] at hsemi
        cases hsemi
        obtain ⟨v, tail, hv, hvkind⟩ := expect_ok hend
        simp only [reduceCtorEq, if_false] at hv
        cases middle with
        | nil => exact ⟨front, semi, last, rfl, hkind, hlast, hplain⟩
        | cons v' middle =>
          cases hv
          exact absurd hvkind (hmiddle v List.mem_cons_self)

end Tokens

section Lexing
variable {c : TextClass} {text gap rest more : Bytes} {tiles : List Tile} {tile : Tile}
    {offset fuel : Nat}

/-- What is added behind another byte makes no text longer. -/
theorem Longest.extend (h : Longest c text rest) (hfits : c.Matches text) (hrest : rest ≠ [])
    (more : Bytes) : Longest c text (rest ++ more) := by
  have hhead : (rest ++ more).head? = rest.head? := List.head?_append_of_ne_nil rest hrest
  cases c with
  | word =>
    refine longest_of_run (fun _ => word_parts) ?_
    rw [hhead]
    refine h.stop fun d hd => ?_
    obtain ⟨b, tail, rfl, hb, htail⟩ := hfits
    exact ⟨b, tail ++ [d], rfl, hb, List.forall_mem_append.mpr ⟨htail, by simpa using hd⟩⟩
  | integer =>
    refine longest_of_run (p := isDigit) (fun _ hmatch => hmatch.2) ?_
    rw [hhead]
    refine h.stop fun d hd => ⟨by simp, ?_⟩
    exact List.forall_mem_append.mpr ⟨hfits.2, by simpa using hd⟩
  | decimal =>
    obtain ⟨whole, fraction, rfl, hwhole, hne, hdigits⟩ := hfits
    refine longest_decimal hwhole.2 ?_
    rw [hhead]
    refine h.stop fun d hd => ⟨whole, fraction ++ [d], by simp, hwhole, by simp, ?_⟩
    exact List.forall_mem_append.mpr ⟨hdigits, by simpa using hd⟩
  | quoted =>
    obtain ⟨s, rfl, -⟩ := hfits
    exact longest_quoted s _
  | symbol =>
    obtain ⟨b, kind, rfl, -⟩ := hfits
    exact longest_symbol b _

theorem cover_append (as bs : List Tile) : cover (as ++ bs) = cover as ++ cover bs := by
  simp [cover]

theorem Laid.last {tile : Tile} (h : Laid offset (tiles ++ [tile])) :
    ∃ offset', Laid offset' [tile] := by
  induction tiles generalizing offset with
  | nil => exact ⟨offset, h⟩
  | cons first tiles ih => exact ih h.2.2.2

theorem Means.semicolon {t : Token} (h : Means c text t) (hkind : t.kind = .semicolon) :
    c = .symbol := by
  cases h with
  | symbol _ => rfl
  | _ => cases hkind

theorem next_text (hgap : Blank gap) (hfits : c.Matches text) (rest : Bytes) (offset : Nat) :
    Lexer.next ⟨gap ++ (text ++ rest), offset⟩ =
    Lexer.scan ⟨text ++ rest, offset + gap.length⟩ := by
  obtain ⟨b, tail, rfl, hb, -⟩ := hfits.head
  unfold Lexer.next
  rw [skipWhitespace_gap hgap]
  simpa using hb

theorem tokenizeAll_step {l l' : Lexer} {t : Token} {tokens : List Token}
    (hnext : l.next = .ok (t, l'))
    (hkind : t.kind ≠ .endOfInput) (h : Lexer.tokenizeAll fuel l = .ok tokens) :
    ∃ fuel' tokens', Lexer.tokenizeAll fuel' l' = .ok tokens' ∧ tokens = t :: tokens' := by
  cases fuel with
  | zero => cases h
  | succ fuel =>
    unfold Lexer.tokenizeAll at h
    simp only [hnext, if_neg hkind] at h
    obtain ⟨tokens', htokens', rfl⟩ := except_map_ok h
    exact ⟨fuel, tokens', htokens', rfl⟩

/-- The tokens up to a semicolon do not depend on what comes behind it. -/
theorem tokenizeAll_extend (hgap : Blank gap) (h : Laid (offset + gap.length) (tiles ++ [tile]))
    (htile : tile.token.kind = .semicolon) {tokens : List Token}
    (htokens : Lexer.tokenizeAll fuel
      ⟨gap ++ (cover (tiles ++ [tile]) ++ more), offset⟩ = .ok tokens) :
    ∃ fuel' offset' after, tokens = tiles.map Tile.token ++ tile.token :: after ∧
      Lexer.tokenizeAll fuel' ⟨tile.gap ++ more, offset'⟩ = .ok after := by
  induction tiles generalizing gap offset fuel tokens with
  | nil =>
    obtain ⟨⟨c, hfits, -, hmeans⟩, hoffset, -, -⟩ := h
    obtain rfl := hmeans.semicolon htile
    have hcover : cover ([] ++ [tile]) ++ more = tile.text ++ (tile.gap ++ more) := by simp [cover]
    rw [hcover] at htokens
    have hnext := next_text hgap hfits (tile.gap ++ more) offset
    rw [← hoffset, scan_symbol hmeans] at hnext
    obtain ⟨fuel', tokens', htokens', rfl⟩ := tokenizeAll_step hnext hmeans.kind htokens
    exact ⟨fuel', _, tokens', rfl, htokens'⟩
  | cons first tiles ih =>
    rw [List.cons_append] at h
    obtain ⟨⟨c, hfits, hlongest, hmeans⟩, hoffset, hgap', hrest⟩ := h
    have hne : first.gap ++ cover (tiles ++ [tile]) ≠ [] := by
      obtain ⟨_, ⟨c', hfits', -⟩, -⟩ := hrest.last
      obtain ⟨b, tail, htext, -⟩ := hfits'.head
      simp [cover_append, cover_cons, htext]
    have hpoint : ∀ b ∈ ((first.gap ++ cover (tiles ++ [tile])) ++ more).head?, b ≠ 46 := by
      rw [List.head?_append_of_ne_nil _ hne]
      exact hrest.no_point hgap'
    have hscan := scan_text hfits (hlongest.extend hfits hne more) hmeans hpoint
    rw [List.cons_append, cover_cons, List.append_assoc] at htokens
    have hnext := next_text hgap hfits ((first.gap ++ cover (tiles ++ [tile])) ++ more) offset
    rw [← hoffset, hscan] at hnext
    obtain ⟨fuel', tokens', htokens', rfl⟩ := tokenizeAll_step hnext hmeans.kind htokens
    rw [List.append_assoc, hoffset] at htokens'
    obtain ⟨fuel', offset', after, rfl, hafter⟩ := ih hgap' hrest htokens'
    exact ⟨fuel', offset', after, rfl, hafter⟩

end Lexing

section Texts
variable {input more : Bytes} {statement statement' : Statement}

theorem parse_single (h : parse input = .ok statement) : ∃ tokens front semi last rest,
    lex input = .ok tokens ∧ OneStatement tokens front semi last ∧
    parseTokens tokens = .ok (statement, rest) := by
  unfold parse at h
  cases hlex : lex input with
  | error e =>
    rw [hlex] at h
    cases h
  | ok tokens =>
    rw [hlex] at h
    obtain ⟨⟨s, rest⟩, hparse, rfl⟩ := except_map_ok h
    obtain ⟨front, semi, last, hsingle⟩ := single_of_parse (lex_lexed hlex) hparse
    exact ⟨tokens, front, semi, last, rest, rfl, hsingle, hparse⟩

theorem parse_of_tokens {tokens rest : List Token} (hlex : lex input = .ok tokens)
    (h : parseTokens tokens = .ok (statement, rest)) : parse input = .ok statement := by
  unfold parse
  rw [hlex]
  dsimp only
  rw [h]
  rfl

/-- Two lists have the same part before the first semicolon. -/
theorem OneStatement.unique {tokens front front' after : List Token} {semi semi' last : Token}
    (h : OneStatement tokens front semi last) (htokens : tokens = front' ++ semi' :: after)
    (hsemi : semi'.kind = .semicolon) (hfront : ∀ t ∈ front', t.kind ≠ .semicolon) :
    front = front' ∧ semi = semi' ∧ [last] = after := by
  have hsplit := h.split.symm.trans htokens
  rcases List.append_eq_append_iff.mp hsplit with ⟨middle, rfl, hmiddle⟩ | ⟨middle, rfl, hmiddle⟩
  · cases middle with
    | nil => simpa using hmiddle
    | cons t middle =>
      obtain ⟨rfl, -⟩ := List.cons.inj hmiddle
      exact absurd h.semi (hfront _ (by simp))
  · cases middle with
    | nil => simpa [eq_comm] using hmiddle
    | cons t middle =>
      obtain ⟨rfl, -⟩ := List.cons.inj hmiddle
      exact absurd hsemi (h.front _ (by simp)).1

theorem OneStatement.before_last {tokens front us : List Token} {semi last e : Token}
    (h : OneStatement tokens front semi last) (htokens : tokens = us ++ [e]) :
    us = front ++ [semi] := by
  have hsplit : us ++ [e] = front ++ [semi] ++ [last] := by
    rw [← htokens, h.split, List.append_assoc]
    rfl
  exact (List.append_inj' hsplit rfl).1

/-- The tiles of a single statement, with that of the semicolon at the end. -/
theorem OneStatement.tiles {tokens front : List Token} {semi last : Token}
    (h : OneStatement tokens front semi last)
    {tiles : List Tile} {e : Token} (htokens : tokens = tiles.map Tile.token ++ [e]) :
    ∃ before tile, tiles = before ++ [tile] ∧ before.map Tile.token = front ∧
      tile.token = semi := by
  obtain ⟨before, rest, rfl, hbefore, hrest⟩ := List.map_eq_append_iff.mp (h.before_last htokens)
  obtain ⟨tile, rfl, htile⟩ := List.map_eq_singleton_iff.mp hrest
  exact ⟨before, tile, rfl, hbefore, htile⟩

/-- Where the lexer finds the end of the input only, there is only whitespace. -/
theorem blank_of_end {fuel offset : Nat} {rest : Bytes} {last : Token}
    (h : Lexer.tokenizeAll fuel ⟨rest, offset⟩ = .ok [last]) : Blank rest := by
  obtain ⟨gap, tiles, hrest, hgap, -, htokens⟩ := tokenizeAll_tiles h
  have hlength := congrArg List.length htokens
  simp only [List.length_append, List.length_map, List.length_cons, List.length_nil] at hlength
  obtain rfl : tiles = [] := List.length_eq_zero_iff.mp (by omega)
  rw [show rest = gap by simpa [cover] using hrest]
  exact hgap

/-- When a text and the beginning of it are accepted, they are one statement. -/
theorem parse_beginning (h : parse (input ++ more) = .ok statement)
    (hcut : parse input = .ok statement') : statement' = statement ∧ Blank more := by
  obtain ⟨tokens', front', semi', last', rest', hlex', hsingle', hparse'⟩ := parse_single hcut
  obtain ⟨tokens, front, semi, last, rest, hlex, hsingle, hparse⟩ := parse_single h
  obtain ⟨gap, tiles, hinput, hgap, hlaid, htokens'⟩ := tokenizeAll_tiles hlex'
  obtain ⟨before, tile, rfl, rfl, rfl⟩ := hsingle'.tiles htokens'
  have htext : input ++ more = gap ++ (cover (before ++ [tile]) ++ more) := by
    rw [← List.append_assoc, ← hinput]
  unfold lex at hlex
  rw [htext] at hlex
  obtain ⟨fuel, offset, after, hafter, hrest⟩ := tokenizeAll_extend hgap hlaid hsingle'.semi hlex
  obtain ⟨rfl, rfl, rfl⟩ := hsingle.unique hafter hsingle'.semi fun t ht => (hsingle'.front t ht).1
  refine ⟨?_, fun b hb => blank_of_end hrest b (List.mem_append_right _ hb)⟩
  have habreast : Abreast [last'] [last] _ _ _ := abreast_same hsingle'.front hsingle'.semi
  rw [← hsingle'.split, ← hsingle.split] at habreast
  rcases parseTokens_abreast habreast hsingle'.last hsingle.last with
    ⟨e, -, he, -⟩ | ⟨s, hs', hs⟩
  · rw [hparse'] at he
    cases he
  · rw [hparse'] at hs'
    rw [hparse] at hs
    cases hs'
    cases hs
    rfl

/-- A statement that has been cut off is refused, unless only whitespace is
missing: no part of a statement is another statement. -/
theorem cut_text_refused (h : parse (input ++ more) = .ok statement) :
    (∃ e, parse input = .error (.error e)) ∨ parse input = .ok statement ∧ Blank more := by
  have hordinary := parse_ordinary input
  cases hcut : parse input with
  | ok statement' =>
    obtain ⟨rfl, hblank⟩ := parse_beginning h hcut
    exact .inr ⟨rfl, hblank⟩
  | error f =>
    rw [hcut] at hordinary
    cases f with
    | error e => exact .inl ⟨e, rfl⟩
    | panic message => exact hordinary.elim

/-- Without its condition and its semicolon, a DELETE does not delete. -/
theorem cut_text_refused_delete : (∃ e, parse (ascii "DELETE FROM t") = .error (.error e)) ∨
    parse (ascii "DELETE FROM t") = .ok (.delete ⟨ascii "t", some (.operation .operationEqual
      ⟨.columnReference, .string (ascii "a")⟩ ⟨.integerLiteral, .int64 ⟨1, by decide⟩⟩)⟩) ∧
      Blank (ascii " WHERE a = 1;") := by
  refine cut_text_refused ?_
  decide +kernel

end Texts

section Layout
variable {c c' : TextClass} {text : Bytes} {t t' : Token} {tiles tiles' : List Tile}

/-- The two texts have the same tokens, with other whitespace between them. -/
def Relaid (a b : Bytes) : Prop :=
  ∃ gap tiles gap' tiles', (a = gap ++ cover tiles ∧ Blank gap ∧ Laid gap.length tiles) ∧
    (b = gap' ++ cover tiles' ∧ Blank gap' ∧ Laid gap'.length tiles') ∧
    tiles.map Tile.text = tiles'.map Tile.text

theorem Means.moved (h : Means c text t) (offset : Nat) : Means c text (movedTo t offset) := by
  cases h with
  | keyword h => exact .keyword h
  | identifier h => exact .identifier h
  | integer h => exact .integer h
  | decimal h => exact .decimal h
  | quoted => exact .quoted
  | symbol h => exact .symbol h

/-- A text on its own stands for one token. -/
theorem Means.unique (h : Means c text t) (h' : Means c' text t') (hfits : c.Matches text)
    (hfits' : c'.Matches text) : t' = movedTo t t'.offset := by
  have hlongest : ∀ d : TextClass, Longest d text [] := fun d more hne hmore =>
    absurd (List.prefix_nil.mp hmore) hne
  have hscan := scan_text hfits (hlongest c) (h.moved t'.offset) (by simp)
  have hscan' := scan_text hfits' (hlongest c') h' (by simp)
  have hoffset : (movedTo t t'.offset).offset = t'.offset := rfl
  rw [hoffset, hscan'] at hscan
  exact (Prod.mk.inj (Except.ok.inj hscan)).1

theorem lex_laid {gap : Bytes} (hgap : Blank gap) (h : Laid gap.length tiles) :
    lex (gap ++ cover tiles) = .ok (tiles.map Tile.token ++
      [⟨.endOfInput, none, .nil, (gap ++ cover tiles).length⟩]) := by
  have hlength := length_le_cover h
  unfold lex
  rw [tokenizeAll_laid hgap (by simpa using h) (by simp; omega), Nat.zero_add]

def Moved (t u : Token) : Prop := ∃ offset, u = movedTo t offset

/-- Tiles with the same texts make the same tokens, elsewhere. -/
theorem moved_of_texts {o o' : Nat} (h : Laid o tiles) (h' : Laid o' tiles')
    (htexts : tiles.map Tile.text = tiles'.map Tile.text) :
    List.Forall₂ Moved (tiles.map Tile.token) (tiles'.map Tile.token) := by
  induction tiles generalizing tiles' o o' with
  | nil =>
    rw [List.map_eq_nil_iff.mp htexts.symm]
    exact .nil
  | cons tile tiles ih =>
    obtain ⟨tile', tiles', rfl, htext, htexts⟩ := List.map_eq_cons_iff.mp htexts.symm
    obtain ⟨⟨c, hfits, -, hmeans⟩, -, -, hrest⟩ := h
    obtain ⟨⟨c', hfits', -, hmeans'⟩, -, -, hrest'⟩ := h'
    rw [htext] at hfits' hmeans'
    exact .cons ⟨_, hmeans.unique hmeans' hfits hfits'⟩ (ih hrest hrest' htexts.symm)

theorem abreast_moved {front us : List Token} {semi last last' : Token}
    (hfront : ∀ t ∈ front, t.kind ≠ .semicolon ∧ t.kind ≠ .endOfInput)
    (hsemi : semi.kind = .semicolon)
    (h : List.Forall₂ Moved (front ++ [semi]) us) :
    Abreast [last] [last'] front.length (front ++ [semi, last]) (us ++ [last']) := by
  induction front generalizing us with
  | nil =>
    obtain ⟨u, us, ⟨offset, rfl⟩, hus, rfl⟩ := List.forall₂_cons_left_iff.mp h
    rw [List.forall₂_nil_left_iff.mp hus]
    exact .stop hsemi
  | cons t front ih =>
    obtain ⟨u, us, ⟨offset, rfl⟩, hus, rfl⟩ := List.forall₂_cons_left_iff.mp h
    obtain ⟨ht, hfront⟩ := List.forall_mem_cons.mp hfront
    exact .token ht.1 ht.2 (ih hfront hus)

/-- Whitespace between tokens does not count. -/
theorem parse_relaid {a b : Bytes} {statement : Statement} (h : Relaid a b)
    (ha : parse a = .ok statement) : parse b = .ok statement := by
  obtain ⟨gap, tiles, gap', tiles', ⟨rfl, hgap, hlaid⟩, ⟨rfl, hgap', hlaid'⟩, htexts⟩ := h
  obtain ⟨tokens, front, semi, last, rest, hlex, hsingle, hparse⟩ := parse_single ha
  have hmoved := moved_of_texts hlaid hlaid' htexts
  have hlex' := lex_laid hgap' hlaid'
  rw [lex_laid hgap hlaid] at hlex
  obtain rfl := Except.ok.inj hlex
  rw [hsingle.before_last rfl] at hmoved
  have habreast : Abreast [last] [⟨.endOfInput, none, .nil, (gap' ++ cover tiles').length⟩] _ _ _ :=
    abreast_moved hsingle.front hsingle.semi hmoved
  rw [← hsingle.split] at habreast
  rcases parseTokens_abreast habreast hsingle.last rfl with ⟨e, -, he, -⟩ | ⟨s, hs, hs'⟩
  · rw [hparse] at he
    cases he
  · rw [hparse] at hs
    cases hs
    exact parse_of_tokens hlex' hs'

/-- The layout of a statement does not matter: with other whitespace between the
same tokens a text is the same statement, or is refused like the first. -/
theorem parse_ignores_layout {a b : Bytes} (h : Relaid a b) (statement : Statement) :
    parse a = .ok statement ↔ parse b = .ok statement := by
  refine ⟨parse_relaid h, parse_relaid ?_⟩
  obtain ⟨gap, tiles, gap', tiles', ha, hb, htexts⟩ := h
  exact ⟨gap', tiles', gap, tiles, hb, ha, htexts.symm⟩

def deletion (g₁ g₂ g₃ g₄ : Bytes) (o : Nat) : List Tile :=
  [⟨[68, 69, 76, 69, 84, 69], g₁, ⟨.keywordKind, some .keywordDelete, .nil, o⟩⟩,
    ⟨[70, 82, 79, 77], g₂, ⟨.keywordKind, some .keywordFrom, .nil, o + 6 + g₁.length⟩⟩,
    ⟨[116], g₃, ⟨.identifier, none, .string [116], o + 6 + g₁.length + 4 + g₂.length⟩⟩,
    ⟨[59], g₄, ⟨.semicolon, none, .nil, o + 6 + g₁.length + 4 + g₂.length + 1 + g₃.length⟩⟩]

theorem deletion_laid {g₁ g₂ g₃ g₄ : Bytes} (h₁ : Blank g₁) (h₂ : Blank g₂) (h₃ : Blank g₃)
    (h₄ : Blank g₄) (s₁ : ∀ b ∈ (g₁ ++ [70]).head?, isIdentifierPart b = false)
    (s₂ : ∀ b ∈ (g₂ ++ [116]).head?, isIdentifierPart b = false)
    (s₃ : ∀ b ∈ (g₃ ++ [59]).head?, isIdentifierPart b = false) (o : Nat) :
    Laid o (deletion g₁ g₂ g₃ g₄ o) := by
  have hstop : ∀ {gap rest : Bytes} {b : Byte},
      (∀ d ∈ (gap ++ [b]).head?, isIdentifierPart d = false) →
      ∀ d ∈ (gap ++ b :: rest).head?, isIdentifierPart d = false := by
    intro gap rest b h
    cases gap <;> exact h
  refine ⟨⟨.word, ?_, longest_of_run (fun _ => word_parts) (hstop s₁), .keyword rfl⟩, rfl, h₁,
    ⟨.word, ?_, longest_of_run (fun _ => word_parts) (hstop s₂), .keyword rfl⟩, rfl, h₂,
    ⟨.word, ?_, longest_of_run (fun _ => word_parts) (hstop s₃), .identifier ?_⟩, rfl, h₃,
    ⟨.symbol, ⟨59, .semicolon, rfl, rfl⟩, longest_symbol _ _, .symbol rfl⟩, rfl, h₄, trivial⟩
  · exact ⟨68, [69, 76, 69, 84, 69], rfl, by decide +kernel⟩
  · exact ⟨70, [82, 79, 77], rfl, by decide +kernel⟩
  · exact ⟨116, [], rfl, by decide +kernel⟩
  · exact keywordFromIdentifier_none.mp (by decide +kernel : keywordFromIdentifier [116] = none)

theorem parse_ignores_layout_delete :
    parse (ascii "DELETE FROM t;") = .ok (.delete ⟨ascii "t", none⟩) ↔
      parse (ascii "\n DELETE\tFROM  t ;\n") = .ok (.delete ⟨ascii "t", none⟩) := by
  have hparts : isIdentifierPart 9 = false ∧ isIdentifierPart 32 = false ∧
      isIdentifierPart 59 = false := by
    decide +kernel
  refine parse_ignores_layout ⟨[], deletion [32] [32] [] [] 0, [10, 32],
    deletion [9] [32, 32] [32] [10] 2,
    ⟨by decide +kernel, by simp [Blank], ?_⟩, ⟨by decide +kernel, by simp [Blank], ?_⟩, rfl⟩ _
  all_goals apply deletion_laid <;> simp [Blank, hparts]

end Layout

end SpaceDB.Proofs
