import SpaceDB.Proofs.PrintedTokens

namespace SpaceDB.Proofs
open Lib Storage Sql ParserM Parser

abbrev Rereads {α : Type} (p : ParserM α) (ws : List Word) (a : α) (P : Token → Prop) : Prop :=
  p.Reads Word.Spells ws a P

section Steps
variable {α β : Type} {P Q : Token → Prop} {ws : List Word} {b : β}

theorem leads_nil (h : ∀ t, Q t → P t) : Leads Word.Spells P [] Q := h

theorem leads_word {w : Word} (h : ∀ o, P (w.token o)) : Leads Word.Spells P (w :: ws) Q := by
  rintro t ⟨o, rfl⟩
  exact h o

/-- The parser looks at the next token and decides. -/
theorem rereads_peek {f : Token → ParserM β} (hlead : Leads Word.Spells P ws Q)
    (h : ∀ t, P t → Rereads (f t) ws b Q) : Rereads (peek >>= f) ws b Q := by
  intro ts rest hts hrest
  obtain ⟨t, tail, hcat, ht⟩ := hlead.starts hts hrest
  have hpeek : peek (ts ++ rest) = .ok (t, ts ++ rest) := by
    rw [hcat]
    rfl
  rw [bind_apply hpeek]
  exact h t ht ts rest hts hrest

theorem next_reads {w : Word} {t : Token} {rest : List Token} (h : w.Spells t)
    (hend : ∀ o, (w.token o).kind ≠ .endOfInput) : next (t :: rest) = .ok (t, rest) := by
  obtain ⟨o, rfl⟩ := h
  simp only [next, if_neg (hend o)]

theorem rereads_next {f : Token → ParserM β} {w : Word} (hend : ∀ o, (w.token o).kind ≠ .endOfInput)
    (h : ∀ o, Rereads (f (w.token o)) ws b Q) : Rereads (next >>= f) (w :: ws) b Q := by
  intro ts rest hts hrest
  cases hts with
  | cons hw htail =>
    rw [List.cons_append, bind_apply (next_reads hw hend)]
    obtain ⟨o, rfl⟩ := hw
    exact h o _ rest htail hrest

theorem expect_rereads {kind : Kind} (hkind : kind ≠ .endOfInput) :
    Rereads (expect kind) [.symbol kind] () P := by
  refine rereads_next (fun _ => hkind) ?_
  intro o
  rw [if_neg (by simp [Word.token])]
  exact reads_pure

theorem expectKeyword_rereads (k : Keyword) : Rereads (expectKeyword k) [.keyword k] () P := by
  apply rereads_next (by simp [Word.token])
  intro o
  rw [if_neg (by simp [Word.token, isKeyword])]
  exact reads_pure

theorem expectIdentifier_rereads (name : Bytes) : Rereads expectIdentifier [.name name] name P := by
  apply rereads_next (by simp [Word.token])
  intro o
  rw [if_neg (by simp [Word.token])]
  exact reads_pure

end Steps

def NoCall (t : Token) : Prop := t.kind ≠ .openParen

theorem noCall_keyword (k : Keyword) (o : Nat) : NoCall ((Word.keyword k).token o) := by
  simp [NoCall, Word.token]

theorem noCall_symbol {kind : Kind} (h : kind ≠ .openParen) (o : Nat) :
    NoCall ((Word.symbol kind).token o) := h

/-- A printed operand is read back. -/
theorem parseExpression_rereads {e : Expression} (h : Operand e) :
    Rereads parseExpression (operandWords e) e NoCall := by
  cases h with
  | null =>
    apply rereads_next (by simp [Word.token])
    exact fun o => reads_pure
  | boolean b =>
    apply rereads_next (by simp [Word.token])
    intro o
    cases b <;> exact reads_pure
  | integer hnonneg =>
    apply rereads_next (by simp [Word.token])
    exact fun o => reads_pure
  | float hsign hfinite =>
    apply rereads_next (by simp [Word.token])
    exact fun o => reads_pure
  | string hfree =>
    apply rereads_next (by simp [Word.token])
    exact fun o => reads_pure
  | column hname =>
    apply rereads_next (by simp [Word.token])
    intro o
    apply rereads_peek (leads_nil (fun t ht => ht))
    intro t ht
    rw [if_pos (show t.kind ≠ .openParen from ht)]
    exact reads_pure
  | function hname hargument =>
    apply rereads_next (by simp [Word.token])
    intro o
    apply rereads_peek (P := fun t => t.kind = .openParen) (leads_word (fun _ => rfl))
    intro t ht
    rw [if_neg (not_not.mpr ht)]
    apply rereads_next (by simp [Word.token])
    intro o
    apply ((expectIdentifier_rereads _).mapError _).cons
    exact ((expect_rereads (by decide)).mapError _).cons reads_pure

theorem parseComparison_rereads {e : Expression} (h : Comparison e) :
    Rereads parseComparisonExpression (comparisonWords e) e NoCall := by
  obtain ⟨kind, hleft, hright⟩ := h
  apply ((parseExpression_rereads hleft).mapError _).bind
  · apply leads_word
    apply noCall_symbol
    cases kind <;> decide
  · cases kind with
    | operationEqual =>
      apply rereads_next (by simp [Word.token, operatorSymbol])
      exact fun _ => ((parseExpression_rereads hright).mapError _).bind_pure _
    | operationGreaterThan =>
      apply rereads_next (by simp [Word.token, operatorSymbol])
      exact fun _ => ((parseExpression_rereads hright).mapError _).bind_pure _
    | operationLessThan =>
      apply rereads_next (by simp [Word.token, operatorSymbol])
      exact fun _ => ((parseExpression_rereads hright).mapError _).bind_pure _

section Lists
variable {α : Type} {item : ParserM α} {words : α → List Word} {P : Token → Prop}

theorem flatMap_comma_length (wss : List (List Word)) :
    wss.length ≤ (wss.flatMap (.symbol .comma :: ·)).length := by
  induction wss with
  | nil => exact Nat.le_refl _
  | cons ws wss ih =>
    simp only [List.flatMap_cons, List.length_append, List.length_cons]
    omega

/-- Items between commas are read back. -/
theorem commaLoop_rereads {l : List α} (hne : l ≠ []) {fuel : Nat} (hfuel : l.length ≤ fuel)
    (hP : ∀ t, P t → t.kind ≠ .comma)
    (hitem : ∀ a ∈ l, Rereads item (words a) a (fun t => P t ∨ t.kind = .comma)) :
    Rereads (commaLoop item fuel) (commaWords (l.map words)) l P := by
  induction l generalizing fuel with
  | nil => exact absurd rfl hne
  | cons a l ih =>
    obtain ⟨fuel, rfl⟩ := Nat.exists_eq_add_of_le' (le_trans (Nat.le_add_left 1 _) hfuel)
    obtain ⟨ha, hl⟩ := List.forall_mem_cons.mp hitem
    cases l with
    | nil =>
      apply ha.bind (leads_nil (fun t ht => .inl ht))
      apply rereads_peek (leads_nil (fun t ht => ht))
      intro t ht
      rw [if_pos (hP t ht)]
      exact reads_pure
    | cons b l =>
      apply ha.bind (leads_word (fun _ => .inr rfl))
      apply rereads_peek (P := fun t => t.kind = .comma) (leads_word (fun _ => rfl))
      intro t ht
      rw [if_neg (not_not.mpr ht)]
      apply rereads_next (by simp [Word.token])
      intro _
      exact (ih (by simp) (by simp at hfuel ⊢; omega) hl).bind_pure _

theorem commaList_rereads {l : List α} (hne : l ≠ []) (hP : ∀ t, P t → t.kind ≠ .comma)
    (hitem : ∀ a ∈ l, Rereads item (words a) a (fun t => P t ∨ t.kind = .comma)) :
    Rereads (.fuelled (commaLoop item)) (commaWords (l.map words)) l P := by
  apply Reads.fuelled
  intro fuel hfuel
  apply commaLoop_rereads hne _ hP hitem
  obtain ⟨a, l, rfl⟩ := List.exists_cons_of_ne_nil hne
  have hlength := flatMap_comma_length (l.map words)
  simp only [List.map_cons, commaWords, List.length_append, List.length_map] at hfuel hlength
  simp only [List.length_cons]
  omega

theorem closeLoop_rereads {l : List α} {fuel : Nat} (hfuel : l.length < fuel)
    (hitem : ∀ a ∈ l, Rereads item (words a) a NoCall) :
    Rereads (closeLoop item fuel) ((l.map words).flatMap (.symbol .comma :: ·)) l
      (fun t => t.kind = .closeParen) := by
  induction l generalizing fuel with
  | nil =>
    obtain ⟨fuel, rfl⟩ := Nat.exists_eq_add_of_lt hfuel
    apply rereads_peek (leads_nil (fun t ht => ht))
    intro t ht
    rw [if_pos ht]
    exact reads_pure
  | cons a l ih =>
    obtain ⟨fuel, rfl⟩ := Nat.exists_eq_add_of_le' (le_trans (Nat.le_add_left 1 _) hfuel)
    obtain ⟨ha, hl⟩ := List.forall_mem_cons.mp hitem
    apply rereads_peek (P := fun t => t.kind ≠ .closeParen)
      (leads_word (fun _ => by simp [Word.token]))
    intro t ht
    rw [if_neg ht]
    apply (expect_rereads (by decide)).cons
    apply ha.bind _ ((ih (by simp at hfuel; omega) hl).bind_pure _)
    cases l with
    | nil => exact leads_nil (fun t ht => by simp [NoCall, ht])
    | cons b l => exact leads_word (noCall_symbol (by decide))

/-- A list that stands in parentheses, from the first item on. -/
theorem parenthesised_rereads {l : List α} (hne : l ≠ [])
    (hitem : ∀ a ∈ l, Rereads item (words a) a NoCall) :
    Rereads (parenthesised item) (commaWords (l.map words) ++ [.symbol .closeParen]) l P := by
  obtain ⟨a, l, rfl⟩ := List.exists_cons_of_ne_nil hne
  obtain ⟨ha, hl⟩ := List.forall_mem_cons.mp hitem
  have hloop : Rereads (.fuelled (closeLoop item)) ((l.map words).flatMap (.symbol .comma :: ·)) l
      (fun t => t.kind = .closeParen) := by
    apply Reads.fuelled
    intro fuel hfuel
    have hlength := flatMap_comma_length (l.map words)
    rw [List.length_map] at hlength
    exact closeLoop_rereads (lt_of_le_of_lt hlength hfuel) hl
  rw [List.map_cons, commaWords, List.append_assoc]
  apply ha.bind
  · cases l with
    | nil => exact leads_word (noCall_symbol (by decide))
    | cons b l => exact leads_word (noCall_symbol (by decide))
  · apply hloop.bind (leads_word (fun _ => rfl))
    exact (expect_rereads (by decide)).bind_pure _

/-- A clause that is missing is not taken for another one. -/
theorem optional_rereads {k : Keyword} {o : Option α} (hP : ∀ t, P t → isKeyword t k = false)
    (hclause : Given (fun a => Rereads item (words a) a P) o) :
    Rereads (optional k item) (optionalWords k words o) o P := by
  cases o with
  | none =>
    apply rereads_peek (leads_nil (fun t ht => ht))
    intro t ht
    rw [if_pos (by simp [hP t ht])]
    exact reads_pure
  | some a =>
    apply rereads_peek (P := fun t => isKeyword t k = true)
      (leads_word (fun _ => by simp [isKeyword, Word.token]))
    intro t ht
    rw [if_neg (by simp [ht])]
    apply rereads_next (by simp [Word.token])
    exact fun _ => (hclause a rfl).bind_pure _

end Lists

structure JoinStep where
  type : JoinType
  name : Bytes
  predicate : Option Expression

def joined (item : FromItem) (joins : List JoinStep) : FromItem :=
  joins.foldl (fun item j => .join item (.table j.name) j.type j.predicate) item

def JoinStep.words (j : JoinStep) : List Word :=
  joinWords j.type ++ .name j.name :: conditionWords j.type j.predicate

inductive JoinStep.Ok : JoinStep → Prop where
  | cross {name : Bytes} (named : Identifier name) : Ok ⟨.joinCross, name, none⟩
  | on {name : Bytes} {type : JoinType} {left right : Expression} (named : Identifier name)
      (conditional : type ≠ .joinCross) (first : Operand left) (second : Operand right) :
      Ok ⟨type, name, some (.operation .operationEqual left right)⟩

theorem fromWords_joined (item : FromItem) (joins : List JoinStep) :
    fromWords (joined item joins) = fromWords item ++ joins.flatMap JoinStep.words := by
  induction joins generalizing item with
  | nil => exact (List.append_nil _).symm
  | cons j joins ih =>
    rw [joined, List.foldl_cons, ← joined, ih]
    simp [fromWords, JoinStep.words]

theorem JoinChain.joined {item : FromItem} {joins : List JoinStep} (h : JoinChain item)
    (hjoins : ∀ j ∈ joins, j.Ok) : JoinChain (joined item joins) := by
  induction joins generalizing item with
  | nil => exact h
  | cons j joins ih =>
    obtain ⟨hj, hjoins⟩ := List.forall_mem_cons.mp hjoins
    apply ih _ hjoins
    cases hj with
    | cross hname => exact .cross h hname
    | on hname htype hleft hright => exact .on h hname htype hleft hright

theorem JoinChain.steps {item : FromItem} (h : JoinChain item) :
    ∃ base joins, item = Proofs.joined (.table base) joins ∧ ∀ j ∈ joins, j.Ok := by
  -- one more join goes to the end of the list
  have hsnoc : ∀ {item : FromItem} {j : JoinStep}, j.Ok →
      (∃ base joins, item = Proofs.joined (.table base) joins ∧ ∀ j ∈ joins, j.Ok) →
      ∃ base joins, .join item (.table j.name) j.type j.predicate =
        Proofs.joined (.table base) joins ∧
        ∀ j ∈ joins, j.Ok := by
    rintro item j hj ⟨base, joins, rfl, hjoins⟩
    refine ⟨base, joins ++ [j], ?_, ?_⟩
    · simp [Proofs.joined]
    · exact List.forall_mem_append.mpr ⟨hjoins, by simpa using hj⟩
  induction h with
  | @table name hname => exact ⟨name, [], rfl, by simp⟩
  | cross hchain hname ih => exact hsnoc (.cross hname) ih
  | on hchain hname htype hleft hright ih => exact hsnoc (.on hname htype hleft hright) ih

/-- The tokens that end the operand of a join and do not begin another join. -/
def NoJoin (t : Token) : Prop :=
  t.kind ≠ .openParen ∧ (t.kind = .keywordKind → t.keyword ≠ some .keywordCross ∧
    t.keyword ≠ some .keywordJoin ∧ t.keyword ≠ some .keywordLeft ∧ t.keyword ≠ some .keywordRight)

theorem parseJoinType_rereads (type : JoinType) :
    Rereads parseJoinType (joinWords type) (some type) (fun _ => True) := by
  cases type with
  | joinInner =>
    apply rereads_peek (P := (Word.keyword .keywordJoin).Spells) (leads_word (fun o => ⟨o, rfl⟩))
    rintro t ⟨o, rfl⟩
    apply rereads_next (by simp [Word.token])
    exact fun _ => reads_pure
  | joinCross =>
    apply rereads_peek (P := (Word.keyword .keywordCross).Spells) (leads_word (fun o => ⟨o, rfl⟩))
    rintro t ⟨o, rfl⟩
    apply rereads_next (by simp [Word.token])
    exact fun _ => (expectKeyword_rereads _).bind_pure _
  | joinLeft =>
    apply rereads_peek (P := (Word.keyword .keywordLeft).Spells) (leads_word (fun o => ⟨o, rfl⟩))
    rintro t ⟨o, rfl⟩
    apply rereads_next (by simp [Word.token])
    exact fun _ => (expectKeyword_rereads _).bind_pure _
  | joinRight =>
    apply rereads_peek (P := (Word.keyword .keywordRight).Spells) (leads_word (fun o => ⟨o, rfl⟩))
    rintro t ⟨o, rfl⟩
    apply rereads_next (by simp [Word.token])
    exact fun _ => (expectKeyword_rereads _).bind_pure _

theorem parseJoinType_none : Rereads parseJoinType [] none NoJoin := by
  apply rereads_peek (leads_nil (fun t ht => ht))
  intro t ht
  split_ifs with hkind
  · exact reads_pure
  · obtain ⟨hcross, hjoin, hleft, hright⟩ := ht.2 (not_not.mp hkind)
    split
    next hk => exact absurd hk hcross
    next hk => exact absurd hk hjoin
    next hk => exact absurd hk hleft
    next hk => exact absurd hk hright
    · exact reads_pure

/-- The swapped operands of a RIGHT JOIN are swapped back. -/
theorem parseJoinPredicate_rereads {j : JoinStep} (h : j.Ok) :
    Rereads (parseJoinPredicate j.type) (conditionWords j.type j.predicate) j.predicate NoCall := by
  cases h with
  | cross hname => exact reads_pure
  | @on name type left right hname htype hleft hright =>
    unfold parseJoinPredicate
    rw [if_neg htype]
    apply (expectKeyword_rereads _).cons
    by_cases hswap : type = .joinRight
    · rw [if_pos hswap]
      apply ((parseExpression_rereads hright).mapError _).bind
        (leads_word (noCall_symbol (by decide)))
      apply (expect_rereads (by decide)).cons
      simp only [if_pos hswap]
      exact ((parseExpression_rereads hleft).mapError _).bind_pure _
    · rw [if_neg hswap]
      apply ((parseExpression_rereads hleft).mapError _).bind
        (leads_word (noCall_symbol (by decide)))
      apply (expect_rereads (by decide)).cons
      simp only [if_neg hswap]
      exact ((parseExpression_rereads hright).mapError _).bind_pure _

/-- The joins of a FROM clause are read back, from left to right. -/
theorem joinLoop_rereads {joins : List JoinStep} (h : ∀ j ∈ joins, j.Ok) {fuel : Nat}
    (hfuel : joins.length < fuel) (item : FromItem) :
    Rereads (joinLoop fuel item) (joins.flatMap JoinStep.words) (joined item joins) NoJoin := by
  induction joins generalizing fuel item with
  | nil =>
    obtain ⟨fuel, rfl⟩ := Nat.exists_eq_add_of_lt hfuel
    exact parseJoinType_none.bind (leads_nil (fun t ht => ht)) reads_pure
  | cons j joins ih =>
    obtain ⟨fuel, rfl⟩ := Nat.exists_eq_add_of_le' (le_trans (Nat.le_add_left 1 _) hfuel)
    obtain ⟨hj, hjoins⟩ := List.forall_mem_cons.mp h
    have hloop := ih hjoins (by simp at hfuel; omega)
      (.join item (.table j.name) j.type j.predicate)
    rw [List.flatMap_cons, JoinStep.words, List.append_assoc]
    apply (parseJoinType_rereads j.type).bind (leads_word (fun _ => trivial))
    apply (expectIdentifier_rereads j.name).cons
    apply (parseJoinPredicate_rereads hj).bind _ hloop
    cases joins with
    | nil => exact leads_nil (fun t ht => ht.1)
    | cons j' joins =>
      rw [List.flatMap_cons, JoinStep.words]
      cases j'.type <;> exact leads_word (noCall_keyword _)

theorem joins_length (joins : List JoinStep) :
    joins.length ≤ (joins.flatMap JoinStep.words).length := by
  induction joins with
  | nil => exact Nat.le_refl _
  | cons j joins ih =>
    simp only [List.flatMap_cons, JoinStep.words, List.length_append, List.length_cons]
    omega

theorem parseFromClause_rereads {item : FromItem} (h : JoinChain item) :
    Rereads parseFromClause (.keyword .keywordFrom :: fromWords item) item NoJoin := by
  obtain ⟨base, joins, rfl, hjoins⟩ := h.steps
  rw [fromWords_joined]
  apply (expectKeyword_rereads _).cons
  apply (expectIdentifier_rereads _).cons
  apply Reads.fuelled
  intro fuel hfuel
  exact joinLoop_rereads hjoins (lt_of_le_of_lt (joins_length joins) hfuel) _

def clausePosition : Keyword → Nat
  | .keywordWhere => 1
  | .keywordGroup => 2
  | .keywordHaving => 3
  | .keywordOrder => 4
  | .keywordLimit => 5
  | .keywordOffset => 6
  | _ => 0

def position (t : Token) : Nat :=
  match t.kind with
  | .keywordKind => t.keyword.elim 0 clausePosition
  | .semicolon => 7
  | _ => 0

/-- The token begins a clause beyond the one of that number, or ends the statement. -/
def After (n : Nat) (t : Token) : Prop := n < position t

theorem After.kind {n : Nat} {t : Token} (h : After n t) :
    t.kind = .semicolon ∨ t.kind = .keywordKind := by
  unfold After position at h
  split at h
  next hkind => exact .inr hkind
  next hkind => exact .inl hkind
  · exact absurd h (Nat.not_lt_zero _)

theorem After.noCall {n : Nat} {t : Token} (h : After n t) : NoCall t := by
  rcases h.kind with hkind | hkind <;> simp [NoCall, hkind]

theorem After.noComma {n : Nat} {t : Token} (h : After n t) : t.kind ≠ .comma := by
  rcases h.kind with hkind | hkind <;> simp [hkind]

theorem After.mono {n m : Nat} {t : Token} (h : After m t) (hnm : n ≤ m) : After n t :=
  lt_of_le_of_lt hnm h

theorem position_keyword {t : Token} {k : Keyword} (h : isKeyword t k = true) :
    position t = clausePosition k := by
  simp only [isKeyword, Bool.and_eq_true, decide_eq_true_eq] at h
  simp [position, h]

theorem After.noKeyword {n : Nat} {t : Token} {k : Keyword} (h : After n t)
    (hk : clausePosition k ≤ n) : isKeyword t k = false := by
  by_contra hkeyword
  have hposition := position_keyword (Bool.of_not_eq_false hkeyword)
  exact absurd h (Nat.not_lt.mpr (hposition ▸ hk))

theorem After.noJoin {n : Nat} {t : Token} (h : After n t) : NoJoin t := by
  refine ⟨h.noCall, ?_⟩
  intro hkind
  have hfree : ∀ k, clausePosition k = 0 → t.keyword ≠ some k := by
    intro k hk hkeyword
    have hno := h.noKeyword (k := k) (hk ▸ Nat.zero_le n)
    simp [isKeyword, hkind, hkeyword] at hno
  exact ⟨hfree _ rfl, hfree _ rfl, hfree _ rfl, hfree _ rfl⟩

theorem after_keyword {k : Keyword} {n : Nat} (h : n < clausePosition k) (o : Nat) :
    After n ((Word.keyword k).token o) := h

theorem leads_optional {α : Type} {k : Keyword} (words : α → List Word) (o : Option α) {n : Nat}
    (h : n < clausePosition k) :
    Leads Word.Spells (After n) (optionalWords k words o) (After (clausePosition k)) := by
  cases o with
  | none => exact leads_nil (fun t ht => ht.mono h.le)
  | some a => exact leads_word (after_keyword h)

theorem leads_orderBy (orderBy : List OrderBy) :
    Leads Word.Spells (After 3) (orderByWords orderBy) (After 4) := by
  unfold orderByWords
  split_ifs
  · exact leads_nil (fun t ht => ht.mono (by decide))
  · exact leads_word (after_keyword (by decide))

/-- An optional clause of the statement, before the clauses after it. -/
theorem clause_rereads {α : Type} {item : ParserM α} {words : α → List Word} {k : Keyword}
    {o : Option α} {P : Token → Prop}
    (hP : ∀ t, After (clausePosition k) t → P t)
    (hclause : Given (fun a => Rereads item (words a) a P) o) :
    Rereads (optional k item) (optionalWords k words o) o (After (clausePosition k)) := by
  apply optional_rereads (fun t ht => ht.noKeyword (Nat.le_refl _))
  intro a ha
  exact (hclause a ha).mono hP

theorem operandClause_rereads (k : Keyword) (format : String) {o : Option Expression}
    (h : Given Operand o) :
    Rereads (optional k (wrap format [] parseExpression)) (optionalWords k operandWords o) o
      (After (clausePosition k)) :=
  clause_rereads (fun _ ht => ht.noCall)
    (fun e he => (parseExpression_rereads (h e he)).mapError _)

theorem comparisonClause_rereads (k : Keyword) {o : Option Expression} (h : Given Comparison o) :
    Rereads (parseOptionalComparison k) (optionalWords k comparisonWords o) o
      (After (clausePosition k)) :=
  clause_rereads (fun _ ht => ht.noCall)
    (fun e he => (parseComparison_rereads (h e he)).mapError _)

theorem groupBy_rereads {o : Option Expression} (h : Given Operand o) :
    Rereads parseGroupBy
      (optionalWords .keywordGroup (fun e => .keyword .keywordBy :: operandWords e) o) o
      (After 2) := by
  apply clause_rereads (k := .keywordGroup) (fun _ ht => ht.noCall)
  intro e he
  apply ((expectKeyword_rereads _).mapError _).cons
  exact (parseExpression_rereads (h e he)).mapError _

def ItemEnd (t : Token) : Prop := isKeyword t .keywordFrom = true ∨ t.kind = .comma

theorem ItemEnd.noCall {t : Token} (h : ItemEnd t) : NoCall t := by
  rcases h with hfrom | hcomma
  · simp only [isKeyword, Bool.and_eq_true, decide_eq_true_eq] at hfrom
    simp [NoCall, hfrom.1]
  · simp [NoCall, hcomma]

theorem ItemEnd.noAs {t : Token} (h : ItemEnd t) : isKeyword t .keywordAs = false := by
  rcases h with hfrom | hcomma
  · simp only [isKeyword, Bool.and_eq_true, decide_eq_true_eq] at hfrom
    simp [isKeyword, hfrom.2]
  · simp [isKeyword, hcomma]

theorem selectItem_rereads {item : SelectItem} (h : SelectItemOk item) :
    Rereads parseSelectItem (selectItemWords item) item ItemEnd := by
  apply ((parseExpression_rereads h.expression).mapError _).bind
  · cases item.aliasName with
    | none => exact leads_nil (fun t ht => ht.noCall)
    | some name => exact leads_word (noCall_keyword _)
  · apply Reads.bind_pure
    apply optional_rereads (fun t ht => ht.noAs)
    exact fun name _ => (expectIdentifier_rereads name).mapError _

theorem leads_operand {e : Expression} (h : Operand e) {ws : List Word} {Q : Token → Prop} :
    Leads Word.Spells (fun t => t.kind ≠ .asterisk) (operandWords e ++ ws) Q := by
  cases h <;> exact leads_word (fun _ => by simp [Word.token])

theorem selectItems_rereads {items : List SelectItem} (h : ∀ item ∈ items, SelectItemOk item) :
    Rereads parseSelectItems (selectItemsWords items) items
      (fun t => isKeyword t .keywordFrom = true) := by
  unfold selectItemsWords
  split_ifs with hempty
  · subst hempty
    apply rereads_peek (P := fun t => t.kind = .asterisk) (leads_word (fun _ => rfl))
    intro t ht
    rw [if_pos ht]
    apply rereads_next (by simp [Word.token])
    exact fun _ => reads_pure
  · obtain ⟨item, items, rfl⟩ := List.exists_cons_of_ne_nil hempty
    have hlead : Leads Word.Spells (fun t => t.kind ≠ .asterisk)
        (commaWords ((item :: items).map selectItemWords))
        (fun t => isKeyword t .keywordFrom = true) := by
      simp only [List.map_cons, commaWords, selectItemWords, List.append_assoc]
      exact leads_operand (h item List.mem_cons_self).expression
    apply rereads_peek hlead
    intro t ht
    rw [if_neg ht]
    apply commaList_rereads hempty
    · intro t ht hcomma
      simp [isKeyword, hcomma] at ht
    · exact fun item hitem => selectItem_rereads (h item hitem)

theorem orderBy_rereads (orderBy : List OrderBy) :
    Rereads parseOrderBy (orderByWords orderBy) orderBy (After 4) := by
  unfold orderByWords
  split_ifs with hempty
  · subst hempty
    apply rereads_peek (leads_nil (fun t ht => ht))
    intro t ht
    rw [if_pos (by simp [ht.noKeyword (k := .keywordOrder) (by decide)])]
    exact reads_pure
  · apply rereads_peek (P := (Word.keyword .keywordOrder).Spells) (leads_word (fun o => ⟨o, rfl⟩))
    rintro t ⟨o, rfl⟩
    apply rereads_next (by simp [Word.token])
    intro _
    apply (expectKeyword_rereads _).cons
    apply commaList_rereads hempty (fun t ht => ht.noComma)
    rintro ⟨column, direction⟩ -
    apply (expectIdentifier_rereads column).cons
    cases direction with
    | orderAscending =>
      apply rereads_peek (P := (Word.keyword .keywordAsc).Spells) (leads_word (fun o => ⟨o, rfl⟩))
      rintro t ⟨o, rfl⟩
      apply rereads_next (by simp [Word.token])
      exact fun _ => reads_pure
    | orderDescending =>
      apply rereads_peek (P := (Word.keyword .keywordDesc).Spells) (leads_word (fun o => ⟨o, rfl⟩))
      rintro t ⟨o, rfl⟩
      apply rereads_next (by simp [Word.token])
      exact fun _ => reads_pure

/-- A printed SELECT is read back. -/
theorem parseSelect_rereads {s : SelectStatement} (h : SelectOk s) :
    Rereads parseSelect (selectWords s) s (After 6) := by
  -- what the clauses from each one on begin with
  have hoffset := leads_optional operandWords s.offset
    (by decide : 5 < clausePosition .keywordOffset)
  have hlimit := (leads_optional operandWords s.limit
    (by decide : 4 < clausePosition .keywordLimit)).append hoffset
  have horder := (leads_orderBy s.orderBy).append hlimit
  have hhaving := (leads_optional comparisonWords s.having
    (by decide : 2 < clausePosition .keywordHaving)).append horder
  have hgroup := (leads_optional (fun e => .keyword .keywordBy :: operandWords e) s.groupBy
    (by decide : 1 < clausePosition .keywordGroup)).append hhaving
  have hwhere := (leads_optional comparisonWords s.whereClause
    (by decide : 0 < clausePosition .keywordWhere)).append hgroup
  apply (expectKeyword_rereads _).cons
  apply (selectItems_rereads h.items).bind (leads_word (fun _ => rfl))
  have hfrom := (parseFromClause_rereads h.chain).mono (fun t (ht : After 0 t) => ht.noJoin)
  apply (hfrom.mapError _).bind hwhere
  apply (comparisonClause_rereads .keywordWhere h.whereClause).bind hgroup
  apply (groupBy_rereads h.groupBy).bind hhaving
  apply (comparisonClause_rereads .keywordHaving h.having).bind horder
  apply (orderBy_rereads s.orderBy).bind hlimit
  apply (operandClause_rereads .keywordLimit _ h.limit).bind hoffset
  exact (operandClause_rereads .keywordOffset _ h.offset).bind_pure _

end SpaceDB.Proofs
