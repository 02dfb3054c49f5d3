import SpaceDB.Proofs.Tiling

namespace SpaceDB.Proofs
open Lib Storage Sql ParserM

/-- Tokens as the lexer makes them: the end of the input is the last one, and it
stands nowhere else. -/
structure Lexed (tokens : List Token) : Prop where
  good : ∀ t ∈ tokens, Good t
  ends : ∃ before last, tokens = before ++ [last] ∧ last.kind = .endOfInput ∧
    ∀ t ∈ before, t.kind ≠ .endOfInput

/-- The parser is at an index of the tokens, and `ts`, at most `n` of them, are
left from there. -/
structure Left (tokens : List Token) (n : Nat) (ts : List Token) : Prop where
  lexed : Lexed tokens
  rest : ts <:+ tokens
  within : ts ≠ []
  bound : ts.length ≤ n

def At (tokens : List Token) (n : Nat) (t : Token) (ts : List Token) : Prop :=
  Left tokens n ts ∧ ts.head? = some t

def Reported : Fault → Prop
  | .error _ => True
  | .panic _ => False

/-- With at most `n` tokens left the parser does not panic, and it stays at an
index of the tokens. -/
def Safe {α : Type} (tokens : List Token) (n : Nat) (p : ParserM α) (Q : α → Prop) : Prop :=
  p.Yields Reported (Left tokens n) Q (fun _ => Left tokens n)

section Basics
variable {α : Type} {tokens : List Token} {n : Nat} {t : Token} {p : ParserM α} {Q : α → Prop}

theorem Left.mono {m : Nat} {ts : List Token} (h : Left tokens n ts) (hle : n ≤ m) :
    Left tokens m ts := ⟨h.lexed, h.rest, h.within, h.bound.trans hle⟩

theorem Left.good {u : Token} {us : List Token} (h : Left tokens n (u :: us)) : Good u :=
  h.lexed.good u (h.rest.subset List.mem_cons_self)

/-- Only at the end of the input is no other token left. -/
theorem Left.tail {u : Token} {us : List Token} (h : Left tokens (n + 1) (u :: us))
    (hkind : u.kind ≠ .endOfInput) : Left tokens n us := by
  refine ⟨h.lexed, (List.suffix_cons u us).trans h.rest, ?_, Nat.le_of_succ_le_succ h.bound⟩
  rintro rfl
  obtain ⟨before, last, htokens, hlast, -⟩ := h.lexed.ends
  obtain ⟨front, hfront⟩ := h.rest
  rw [htokens] at hfront
  have hu : [u] = [last] := (List.append_inj' hfront rfl).2
  rw [List.cons.inj hu |>.1] at hkind
  exact hkind hlast

theorem safe_pure {a : α} (h : Q a) : Safe tokens n (pure a) Q :=
  Parser.yields_pure h (fun _ hts => hts)

theorem safe_zero : Safe tokens 0 p Q := by
  intro ts hts
  exact absurd (List.length_eq_zero_iff.mp (Nat.le_zero.mp hts.bound)) hts.within

theorem safe_error (format : String) (args : List Arg) : Safe tokens n (error format args) Q :=
  Parser.yields_fail trivial

theorem Safe.wrap {format : String} {args : List Arg} (h : Safe tokens n p Q) :
    Safe tokens n (wrap format args p) Q := by
  refine h.mapError ?_
  intro e he
  cases e <;> exact he

theorem Safe.weaken {Q' : α → Prop} (h : Safe tokens n p Q) (hQ : ∀ a, Q a → Q' a) :
    Safe tokens n p Q' := h.mono (fun _ hts => hts) hQ (fun _ _ hts => hts)

theorem yields_at {J : α → List Token → Prop} (h : p.Yields Reported (Left tokens n) Q J) :
    p.Yields Reported (At tokens n t) Q J :=
  h.mono (fun _ hts => hts.1) (fun _ ha => ha) (fun _ _ hts => hts)

/-- What is safe with a token less may go on from there. -/
theorem Safe.later (h : Safe tokens n p Q) :
    p.Yields Reported (Left tokens n) Q (fun _ => Left tokens (n + 1)) :=
  h.mono (fun _ hts => hts) (fun _ ha => ha) (fun _ _ hts => hts.mono (Nat.le_succ n))

/-- A loop that is safe whenever its fuel is the number of tokens left. -/
theorem Safe.fuelled {loop : Nat → ParserM α} (h : ∀ m, Safe tokens m (loop m) Q) :
    Safe tokens n (.fuelled loop) Q := by
  intro ts hts
  have hloop := h ts.length ts ⟨hts.lexed, hts.rest, hts.within, le_rfl⟩
  unfold Parser.fuelled
  cases hr : loop ts.length ts with
  | error e =>
    rw [hr] at hloop
    exact hloop
  | ok r =>
    rw [hr] at hloop
    exact ⟨hloop.1, hloop.2.mono hts.bound⟩

theorem peek_yields : peek.Yields Reported (Left tokens n) Good (At tokens n) := by
  intro ts hts
  cases ts with
  | nil => exact absurd rfl hts.within
  | cons u us => exact ⟨hts.good, hts, rfl⟩

/-- The parser can always take a token: the last one stays. -/
theorem next_safe : Safe tokens n next Good := by
  intro ts hts
  cases ts with
  | nil => exact absurd rfl hts.within
  | cons u us =>
    refine ⟨hts.good, ?_⟩
    dsimp only
    split_ifs with hkind
    · exact hts
    · exact (hts.mono (Nat.le_succ n)).tail hkind

/-- Every token but the end of the input is passed. -/
theorem next_passes : next.Yields Reported (Left tokens (n + 1)) Good
    (fun t rest => t.kind ≠ .endOfInput → Left tokens n rest) := by
  intro ts hts
  cases ts with
  | nil => exact absurd rfl hts.within
  | cons u us =>
    refine ⟨hts.good, ?_⟩
    intro hkind
    rw [if_neg hkind]
    exact hts.tail hkind

/-- Any other token is used up. -/
theorem next_at (hkind : t.kind ≠ .endOfInput) :
    next.Yields Reported (At tokens (n + 1) t) Good (fun _ => Left tokens n) := by
  rintro ts ⟨hts, ht⟩
  cases ts with
  | nil => cases ht
  | cons u us =>
    cases ht
    exact ⟨hts.good, (next_passes (t :: us) hts).2 hkind⟩

theorem expect_safe (kind : Kind) : Safe tokens n (expect kind) (fun _ => True) :=
  next_safe.bind (fun _ _ => (safe_error _ _).ite (safe_pure trivial))

theorem expect_passes {kind : Kind} (hkind : kind ≠ .endOfInput) :
    (expect kind).Yields Reported (Left tokens (n + 1)) (fun _ => True)
      (fun _ => Left tokens n) := by
  refine next_passes.bind (fun t _ => ?_)
  split_ifs with ht
  · exact Parser.yields_fail trivial
  · refine Parser.yields_pure trivial (fun _ hrest => hrest ?_)
    rw [not_not.mp ht]
    exact hkind

theorem expectKeyword_safe (keyword : Keyword) :
    Safe tokens n (expectKeyword keyword) (fun _ => True) :=
  next_safe.bind (fun _ _ => (safe_error _ _).ite (safe_pure trivial))

theorem stringValue_safe {s : Bytes} {Q : Bytes → Prop} (hv : t.value = .string s) (hQ : Q s) :
    Safe tokens n (stringValue t) Q := by
  unfold stringValue
  rw [hv]
  exact safe_pure hQ

theorem expectIdentifier_safe : Safe tokens n expectIdentifier Identifier := by
  refine next_safe.bind (fun t hgood => ?_)
  split_ifs with hkind
  · exact safe_error _ _
  · unfold Good at hgood
    rw [not_not.mp hkind] at hgood
    obtain ⟨s, hs, hident⟩ := hgood
    exact stringValue_safe hs hident

end Basics


section Lists
variable {α : Type} {tokens : List Token} {n : Nat} {item : ParserM α} {Q : α → Prop}

theorem commaRound_safe {others : ParserM (List α)} {R : List α → Prop}
    (h : ∀ m, Safe tokens m item Q) (hothers : Safe tokens n others R)
    (hone : ∀ a, Q a → R [a]) (hcons : ∀ a l, Q a → R l → R (a :: l)) :
    Safe tokens (n + 1) (commaRound item others) R := by
  refine (h (n + 1)).bind (fun a ha => peek_yields.bind (fun t _ => ?_))
  split_ifs with hcomma
  · exact yields_at (safe_pure (hone a ha))
  · have hkind : t.kind ≠ .endOfInput := by simp [not_not.mp hcomma]
    refine (next_at hkind).bind (fun _ _ => hothers.later.bind (fun l hl => ?_))
    exact safe_pure (hcons a l ha hl)

theorem closeRound_safe {others : ParserM (List α)} {R : List α → Prop}
    (h : ∀ m, Safe tokens m item Q) (hothers : Safe tokens n others R)
    (hnil : R []) (hcons : ∀ a l, Q a → R l → R (a :: l)) :
    Safe tokens (n + 1) (closeRound item others) R := by
  refine peek_yields.bind (fun t _ => ?_)
  split_ifs
  · exact yields_at (safe_pure hnil)
  · refine (yields_at (expect_passes (by simp))).bind (fun _ _ => (h n).bind (fun a ha => ?_))
    exact hothers.later.bind (fun l hl => safe_pure (hcons a l ha hl))

theorem commaLoop_safe (h : ∀ m, Safe tokens m item Q) (m : Nat) :
    Safe tokens m (commaLoop item m) (fun l => l ≠ [] ∧ ∀ a ∈ l, Q a) := by
  induction m with
  | zero => exact safe_zero
  | succ m ih =>
    refine commaRound_safe h ih (by simp) ?_
    exact fun a l ha hl => ⟨by simp, List.forall_mem_cons.mpr ⟨ha, hl.2⟩⟩

theorem closeLoop_safe (h : ∀ m, Safe tokens m item Q) (m : Nat) :
    Safe tokens m (closeLoop item m) (fun l => ∀ a ∈ l, Q a) := by
  induction m with
  | zero => exact safe_zero
  | succ m ih =>
    exact closeRound_safe h ih (by simp) (fun a l ha hl => List.forall_mem_cons.mpr ⟨ha, hl⟩)

theorem parenthesised_safe (h : ∀ m, Safe tokens m item Q) :
    Safe tokens n (parenthesised item) (fun l => l ≠ [] ∧ ∀ a ∈ l, Q a) := by
  refine (h n).bind (fun a ha => (Safe.fuelled (closeLoop_safe h)).bind (fun l hl => ?_))
  refine (expect_safe _).bind (fun _ _ => safe_pure ?_)
  exact ⟨by simp, List.forall_mem_cons.mpr ⟨ha, hl⟩⟩

theorem optional_safe (keyword : Keyword) (h : Safe tokens n item Q) :
    Safe tokens n (optional keyword item) (Given Q) := by
  refine peek_yields.bind (fun t _ => ?_)
  split_ifs
  · exact yields_at (safe_pure given_none)
  · exact (yields_at next_safe).bind (fun _ _ => h.bind (fun a ha => safe_pure (given_some ha)))

end Lists

section Productions
variable {tokens : List Token} {n : Nat}

/-- What the parser takes for an expression is an operand. -/
theorem parseExpression_safe : Safe tokens n parseExpression Operand := by
  refine next_safe.bind (fun t hgood => ?_)
  unfold Good at hgood
  split
  next hkind =>
    rw [hkind] at hgood
    obtain ⟨s, hs, hident⟩ := hgood
    refine (stringValue_safe hs hident).bind (fun name hname => peek_yields.bind (fun u _ => ?_))
    split_ifs
    · exact yields_at (safe_pure (.column hname))
    · refine (yields_at next_safe).bind (fun _ _ => ?_)
      refine expectIdentifier_safe.wrap.bind (fun argument harg => ?_)
      exact (expect_safe _).wrap.bind (fun _ _ => safe_pure (.function hname harg))
  next hkind =>
    rw [hkind] at hgood
    obtain ⟨s, hs, hfree⟩ := hgood
    exact (stringValue_safe hs hfree).bind (fun s hs => safe_pure (.string hs))
  next hkind =>
    rw [hkind] at hgood
    rcases hgood with ⟨i, hi, hnonneg⟩ | ⟨f, hf, hnonneg, hfinite⟩
    · rw [hi]
      exact safe_pure (.integer hnonneg)
    · rw [hf]
      exact safe_pure (.float hnonneg hfinite)
  · split
    · exact safe_pure (.boolean true)
    · exact safe_pure (.boolean false)
    · exact safe_pure .null
    · exact safe_error _ _
  · exact safe_error _ _

theorem parseComparison_safe : Safe tokens n parseComparisonExpression Comparison := by
  refine (Safe.wrap parseExpression_safe).bind (fun left hleft => next_safe.bind (fun t _ => ?_))
  split
  · exact safe_error _ _
  · refine (Safe.wrap parseExpression_safe).bind (fun right hright => ?_)
    exact safe_pure (.mk _ hleft hright)

theorem parseOptionalComparison_safe (keyword : Keyword) :
    Safe tokens n (parseOptionalComparison keyword) (Given Comparison) :=
  optional_safe keyword parseComparison_safe.wrap

/-- Where a join operator comes next, it is passed. -/
theorem parseJoinType_yields : parseJoinType.Yields Reported (Left tokens (n + 1)) (fun _ => True)
    (fun found => Left tokens (if found.isSome then n else n + 1)) := by
  have hnone : (pure none : ParserM (Option JoinType)).Yields Reported (Left tokens (n + 1))
      (fun _ => True) (fun found => Left tokens (if found.isSome then n else n + 1)) :=
    Parser.yields_pure trivial (fun _ hts => hts)
  have hfound (type : JoinType) : (pure (some type) : ParserM (Option JoinType)).Yields Reported
      (Left tokens n) (fun _ => True)
      (fun found => Left tokens (if found.isSome then n else n + 1)) :=
    Parser.yields_pure trivial (fun _ hts => hts)
  refine peek_yields.bind (fun t _ => ?_)
  split_ifs with hkeyword
  · exact yields_at hnone
  · have hkind : t.kind ≠ .endOfInput := by simp [not_not.mp hkeyword]
    split
    · exact (next_at hkind).bind (fun _ _ => (expectKeyword_safe _).bind (fun _ _ => hfound _))
    · exact (next_at hkind).bind (fun _ _ => hfound _)
    · exact (next_at hkind).bind (fun _ _ => (expectKeyword_safe _).bind (fun _ _ => hfound _))
    · exact (next_at hkind).bind (fun _ _ => (expectKeyword_safe _).bind (fun _ _ => hfound _))
    · exact yields_at hnone

/-- A join goes on from a chain with a chain. -/
theorem parseJoinPredicate_safe {name : Bytes} (joinType : JoinType) (hname : Identifier name) :
    Safe tokens n (parseJoinPredicate joinType) (fun predicate => ∀ item, JoinChain item →
      JoinChain (.join item (.table name) joinType predicate)) := by
  unfold parseJoinPredicate
  by_cases htype : joinType = .joinCross
  · subst htype
    exact safe_pure (fun item hitem => .cross hitem hname)
  · rw [if_neg htype]
    refine (expectKeyword_safe _).bind (fun _ _ => ?_)
    refine (Safe.wrap parseExpression_safe).bind
      (fun left hleft => (expect_safe _).bind (fun _ _ => ?_))
    refine (Safe.wrap parseExpression_safe).bind (fun right hright => ?_)
    exact (safe_pure (fun item hitem => .on hitem hname htype hright hleft)).ite
      (safe_pure (fun item hitem => .on hitem hname htype hleft hright))

theorem joinRound_safe {others : FromItem → ParserM FromItem} {item : FromItem}
    {R : FromItem → Prop} (hR : R item)
    (hothers : ∀ item', (JoinChain item → JoinChain item') → Safe tokens n (others item') R) :
    Safe tokens (n + 1) (joinRound others item) R := by
  refine parseJoinType_yields.bind (fun joinType _ => ?_)
  cases joinType with
  | none => exact safe_pure hR
  | some joinType =>
    refine (expectIdentifier_safe (n := n)).bind (fun name hname => ?_)
    refine (parseJoinPredicate_safe joinType hname).bind (fun predicate hjoin => ?_)
    exact (hothers _ (hjoin item)).later

theorem joinLoop_safe (m : Nat) {item : FromItem} (hitem : JoinChain item) :
    Safe tokens m (joinLoop m item) JoinChain := by
  induction m generalizing item with
  | zero => exact safe_zero
  | succ m ih =>
    exact joinRound_safe hitem (fun item' hchain => ih (hchain hitem))

theorem parseFromClause_safe : Safe tokens n parseFromClause JoinChain := by
  refine (expectKeyword_safe _).bind (fun _ _ => expectIdentifier_safe.bind (fun name hname => ?_))
  exact Safe.fuelled (fun m => joinLoop_safe m (.table hname))

theorem parseSelectItem_safe : Safe tokens n parseSelectItem SelectItemOk := by
  refine (Safe.wrap parseExpression_safe).bind (fun e he => ?_)
  exact (optional_safe _ expectIdentifier_safe.wrap).bind (fun a ha => safe_pure ⟨he, ha⟩)

theorem parseSelectItems_safe :
    Safe tokens n parseSelectItems (fun items => ∀ item ∈ items, SelectItemOk item) := by
  refine peek_yields.bind (fun t _ => ?_)
  split_ifs
  · exact (yields_at next_safe).bind (fun _ _ => safe_pure (by simp))
  · refine yields_at ?_
    exact (Safe.fuelled (commaLoop_safe (fun _ => parseSelectItem_safe))).weaken
      (fun items hitems => hitems.2)

theorem parseGroupBy_safe : Safe tokens n parseGroupBy (Given Operand) :=
  optional_safe _ ((expectKeyword_safe _).wrap.bind (fun _ _ => Safe.wrap parseExpression_safe))

theorem parseOrderItem_safe : Safe tokens n parseOrderItem (fun o => Identifier o.column) := by
  refine expectIdentifier_safe.bind (fun name hname => peek_yields.bind (fun t _ => ?_))
  split_ifs
  · exact (yields_at next_safe).bind (fun _ _ => safe_pure hname)
  · exact (yields_at next_safe).bind (fun _ _ => safe_pure hname)
  · exact yields_at (safe_pure hname)

theorem parseOrderBy_safe :
    Safe tokens n parseOrderBy (fun orderBy => ∀ o ∈ orderBy, Identifier o.column) := by
  refine peek_yields.bind (fun t _ => ?_)
  split_ifs
  · exact yields_at (safe_pure (by simp))
  · refine (yields_at next_safe).bind (fun _ _ => (expectKeyword_safe _).bind (fun _ _ => ?_))
    exact (Safe.fuelled (commaLoop_safe (fun _ => parseOrderItem_safe))).weaken
      (fun orderBy horder => horder.2)

/-- The clauses of a SELECT, each well formed. -/
theorem parseSelect_safe : Safe tokens n parseSelect SelectOk := by
  refine (expectKeyword_safe _).bind (fun _ _ => ?_)
  refine parseSelectItems_safe.bind (fun items hitems => ?_)
  refine parseFromClause_safe.wrap.bind (fun fromItem hfrom => ?_)
  refine (parseOptionalComparison_safe _).bind (fun whereClause hwhere => ?_)
  refine parseGroupBy_safe.bind (fun groupBy hgroup => ?_)
  refine (parseOptionalComparison_safe _).bind (fun having hhaving => ?_)
  refine parseOrderBy_safe.bind (fun orderBy horder => ?_)
  refine (optional_safe _ (.wrap parseExpression_safe)).bind (fun limit hlimit => ?_)
  refine (optional_safe _ (.wrap parseExpression_safe)).bind (fun offset hoffset => ?_)
  exact safe_pure ⟨hfrom, hitems, hwhere, hgroup, hhaving, horder, hlimit, hoffset⟩

theorem constraintRound_safe {others : ColumnDef → ParserM ColumnDef} {column : ColumnDef}
    {R : ColumnDef → Prop} (hR : R column)
    (hothers : ∀ column', (ColumnOk column → ColumnOk column') →
      Safe tokens n (others column') R) :
    Safe tokens (n + 1) (constraintRound others column) R := by
  refine peek_yields.bind (fun t _ => ?_)
  split_ifs with hkeyword
  · exact yields_at (safe_pure hR)
  · have hkind : t.kind ≠ .endOfInput := by simp [not_not.mp hkeyword]
    split
    · refine (next_at hkind).bind (fun _ _ => ?_)
      refine Safe.later (hothers _ ?_)
      exact fun h => ⟨h.name, h.default⟩
    · refine (next_at hkind).bind (fun _ _ => (expectKeyword_safe _).bind (fun _ _ => ?_))
      refine Safe.later (hothers _ ?_)
      exact fun h => ⟨h.name, h.default⟩
    · refine (next_at hkind).bind
        (fun _ _ => Parser.Yields.bind parseExpression_safe (fun e he => ?_))
      refine Safe.later (hothers _ ?_)
      exact fun h => ⟨h.name, given_some he⟩
    · refine (next_at hkind).bind (fun _ _ => (expectKeyword_safe _).bind (fun _ _ => ?_))
      refine Safe.later (hothers _ ?_)
      exact fun h => ⟨h.name, h.default⟩
    · exact yields_at (safe_error _ _)

theorem constraintLoop_safe (m : Nat) {column : ColumnDef} (h : ColumnOk column) :
    Safe tokens m (constraintLoop m column) ColumnOk := by
  induction m generalizing column with
  | zero => exact safe_zero
  | succ m ih =>
    exact constraintRound_safe h (fun column' hcolumn => ih (hcolumn h))

theorem parseColumn_safe : Safe tokens n parseColumn ColumnOk := by
  refine expectIdentifier_safe.bind (fun name hname => next_safe.bind (fun t _ => ?_))
  split_ifs
  · exact safe_error _ _
  · split
    · exact safe_error _ _
    · exact Safe.fuelled (fun m => constraintLoop_safe m ⟨hname, given_none⟩)

theorem parseCreateTable_safe :
    Safe tokens n parseCreateTable (fun s => WellFormed (.createTable s)) := by
  refine (expectKeyword_safe _).bind (fun _ _ => (expectKeyword_safe _).bind (fun _ _ => ?_))
  refine expectIdentifier_safe.bind (fun name hname => (expect_safe _).bind (fun _ _ => ?_))
  refine (Safe.fuelled (commaLoop_safe (fun _ => parseColumn_safe))).bind (fun columns hcols => ?_)
  refine (expect_safe _).bind (fun _ _ => safe_pure ?_)
  exact ⟨⟨hname, hcols.2⟩, hcols.1⟩

theorem parseInsertColumns_safe :
    Safe tokens n parseInsertColumns (fun columns => ∀ c ∈ columns, Identifier c) := by
  refine peek_yields.bind (fun t _ => ?_)
  split_ifs
  · exact yields_at (safe_pure (by simp))
  · refine (yields_at next_safe).bind (fun _ _ => ?_)
    exact (parenthesised_safe (fun _ => expectIdentifier_safe)).weaken
      (fun columns hcols => hcols.2)

theorem parseValueRow_safe :
    Safe tokens n parseValueRow (fun row => row ≠ [] ∧ ∀ e ∈ row, Operand e) :=
  (expect_safe _).bind (fun _ _ => parenthesised_safe (fun _ => parseExpression_safe))

theorem parseInsert_safe : Safe tokens n parseInsert (fun s => WellFormed (.insert s)) := by
  refine (expectKeyword_safe _).bind (fun _ _ => (expectKeyword_safe _).bind (fun _ _ => ?_))
  refine expectIdentifier_safe.bind (fun name hname => ?_)
  refine parseInsertColumns_safe.bind (fun columns hcolumns => ?_)
  refine (expectKeyword_safe _).bind (fun _ _ => ?_)
  refine (Safe.fuelled (commaLoop_safe (fun _ => parseValueRow_safe))).bind
    (fun values hvalues => ?_)
  exact safe_pure ⟨⟨hname, hcolumns, hvalues.1, hvalues.2⟩, trivial⟩

def AssignmentsOk (assignments : OrderedMap Bytes Expression) : Prop :=
  ∀ e ∈ assignments.entries, Identifier e.1 ∧ Operand e.2

theorem AssignmentsOk.insert {assignments : OrderedMap Bytes Expression} {name : Bytes}
    {value : Expression} (h : AssignmentsOk assignments) (hname : Identifier name)
    (hvalue : Operand value) : AssignmentsOk (assignments.insert name value) := by
  intro e he
  rcases OrderedMap.mem_insertEntry_sub he with rfl | he
  · exact ⟨hname, hvalue⟩
  · exact h e he

theorem insert_entries_ne_nil {α β : Type} [LinearOrder α] (m : OrderedMap α β) (k : α) (v : β) :
    (m.insert k v).entries ≠ [] := by
  intro hnil
  have hfind := m.find?_insert k k v
  rw [if_pos rfl, OrderedMap.find?_eq_some, hnil] at hfind
  cases hfind

theorem assignmentRound_safe
    {others : OrderedMap Bytes Expression → ParserM (OrderedMap Bytes Expression)}
    {assignments : OrderedMap Bytes Expression} {R : OrderedMap Bytes Expression → Prop}
    (hR : ∀ m, m.entries ≠ [] → (AssignmentsOk assignments → AssignmentsOk m) → R m)
    (hothers : ∀ m, (AssignmentsOk assignments → AssignmentsOk m) → Safe tokens n (others m) R) :
    Safe tokens (n + 1) (assignmentRound others assignments) R := by
  refine peek_yields.bind (fun _ _ => (yields_at expectIdentifier_safe).bind (fun name hname => ?_))
  refine (expect_safe _).bind
    (fun _ _ => Parser.Yields.bind parseExpression_safe (fun value hvalue => ?_))
  split_ifs
  · exact safe_error _ _
  · refine peek_yields.bind (fun t _ => ?_)
    split_ifs with hcomma
    · exact yields_at
        (safe_pure (hR _ (insert_entries_ne_nil _ _ _) (fun h => h.insert hname hvalue)))
    · have hkind : t.kind ≠ .endOfInput := by simp [not_not.mp hcomma]
      refine (next_at hkind).bind (fun _ _ => ?_)
      exact (hothers _ (fun h => h.insert hname hvalue)).later

theorem assignmentLoop_safe (m : Nat) {assignments : OrderedMap Bytes Expression}
    (h : AssignmentsOk assignments) :
    Safe tokens m (assignmentLoop m assignments) (fun m => m.entries ≠ [] ∧ AssignmentsOk m) := by
  induction m generalizing assignments with
  | zero => exact safe_zero
  | succ m ih =>
    exact assignmentRound_safe (fun _ hne hok => ⟨hne, hok h⟩) (fun _ hok => ih (hok h))

theorem parseUpdate_safe : Safe tokens n parseUpdate (fun s => WellFormed (.update s)) := by
  refine (expectKeyword_safe _).bind (fun _ _ => ?_)
  refine expectIdentifier_safe.bind (fun name hname => (expectKeyword_safe _).bind (fun _ _ => ?_))
  have hempty : AssignmentsOk .empty := by simp [AssignmentsOk, OrderedMap.empty]
  refine (Safe.fuelled (fun m => assignmentLoop_safe m hempty)).bind (fun assignments hassign => ?_)
  refine (parseOptionalComparison_safe _).bind (fun filter hfilter => ?_)
  exact safe_pure ⟨⟨hname, hassign.1, hassign.2, hfilter⟩, trivial⟩

theorem parseDelete_safe : Safe tokens n parseDelete (fun s => WellFormed (.delete s)) := by
  refine (expectKeyword_safe _).bind (fun _ _ => (expectKeyword_safe _).bind (fun _ _ => ?_))
  refine expectIdentifier_safe.bind (fun name hname => ?_)
  refine (parseOptionalComparison_safe _).bind (fun filter hfilter => ?_)
  exact safe_pure ⟨⟨hname, hfilter⟩, trivial⟩

/-- What the parser returns is a well-formed statement. -/
theorem parseStatement_safe : Safe tokens n parseStatement WellFormed := by
  refine peek_yields.bind (fun t _ => yields_at ?_)
  split_ifs
  · exact safe_error _ _
  · exact safe_error _ _
  · split
    · exact parseSelect_safe.bind (fun s hs => safe_pure ⟨hs, trivial⟩)
    · exact parseCreateTable_safe.bind (fun s hs => safe_pure hs)
    · exact parseInsert_safe.bind (fun s hs => safe_pure hs)
    · exact parseUpdate_safe.bind (fun s hs => safe_pure hs)
    · exact parseDelete_safe.bind (fun s hs => safe_pure hs)
    · exact safe_error _ _

theorem parseTokens_safe : Safe tokens n parseTokens WellFormed :=
  parseStatement_safe.bind (fun _ hs => (expect_safe _).bind (fun _ _ =>
    (expect_safe _).bind (fun _ _ => safe_pure hs)))

end Productions

section Whole
variable {input : Bytes} {tokens : List Token}

theorem Laid.kinds {offset : Nat} {tiles : List Tile} (h : Laid offset tiles) :
    ∀ t ∈ tiles.map Tile.token, t.kind ≠ .endOfInput := by
  induction tiles generalizing offset with
  | nil => simp
  | cons tile tiles ih =>
    obtain ⟨⟨c, -, -, hmeans⟩, -, -, hrest⟩ := h
    exact List.forall_mem_cons.mpr ⟨hmeans.kind, ih hrest⟩

theorem lex_lexed (h : lex input = .ok tokens) : Lexed tokens := by
  obtain ⟨gap, tiles, -, -, hlaid, htokens⟩ := tokenizeAll_tiles h
  exact ⟨lex_good h, _, _, htokens, rfl, hlaid.kinds⟩

theorem Lexed.left (h : Lexed tokens) : Left tokens tokens.length tokens := by
  refine ⟨h, List.suffix_rfl, ?_, le_rfl⟩
  obtain ⟨before, last, rfl, -⟩ := h.ends
  simp

theorem lex_ordinary (input : Bytes) : Ordinary Lexed (lex input) := by
  have h : Ordinary (fun _ => True) (lex input) := tokenizeAll_ordinary (Nat.lt_succ_self _)
  cases hlex : lex input with
  | ok tokens => exact lex_lexed hlex
  | error e =>
    rw [hlex] at h
    cases e <;> exact h

/-- Whatever the input, the parser returns a well-formed statement or reports an
error. -/
theorem parse_ordinary (input : Bytes) : Ordinary WellFormed (parse input) := by
  have hlex := lex_ordinary input
  unfold parse
  cases hl : lex input with
  | error e =>
    rw [hl] at hlex
    cases e <;> exact hlex
  | ok tokens =>
    rw [hl] at hlex
    have hparse := parseTokens_safe tokens (Lexed.left hlex)
    dsimp only
    cases hr : parseTokens tokens with
    | error e =>
      rw [hr] at hparse
      cases e <;> exact hparse
    | ok r =>
      rw [hr] at hparse
      exact hparse.1

/-- Whatever the input, a statement that the parser returns is well formed. -/
theorem wellFormed_of_parse {s : Statement} (h : parse input = .ok s) : WellFormed s := by
  have hordinary := parse_ordinary input
  rw [h] at hordinary
  exact hordinary

end Whole

/-- The loop is made of these rounds, and a round either stops or leaves the
others at least one token less than it began with. -/
def Advances {σ α : Type} (tokens : List Token) (loop : Nat → σ → ParserM α)
    (round : (σ → ParserM α) → σ → ParserM α) : Prop :=
  (∀ fuel, loop (fuel + 1) = round (loop fuel)) ∧
  ∀ n others state, (∀ state', Safe tokens n (others state') (fun _ => True)) →
    Safe tokens (n + 1) (round others state) (fun _ => True)

section Advances
variable {α : Type} {tokens : List Token} {item : ParserM α} {Q : α → Prop}

theorem commaLoop_advances (h : ∀ n, Safe tokens n item Q) :
    Advances tokens (fun fuel _ => commaLoop item fuel)
      (fun others _ => commaRound item (others ())) :=
  ⟨fun _ => rfl, fun _ _ _ hothers =>
    commaRound_safe h (hothers ()) (fun _ _ => trivial) (fun _ _ _ _ => trivial)⟩

theorem closeLoop_advances (h : ∀ n, Safe tokens n item Q) :
    Advances tokens (fun fuel _ => closeLoop item fuel)
      (fun others _ => closeRound item (others ())) :=
  ⟨fun _ => rfl, fun _ _ _ hothers =>
    closeRound_safe h (hothers ()) trivial (fun _ _ _ _ => trivial)⟩

end Advances

structure LoopsAdvance (tokens : List Token) : Prop where
  selectItems : Advances tokens (fun fuel _ => commaLoop parseSelectItem fuel)
    (fun others _ => commaRound parseSelectItem (others ()))
  orderItems : Advances tokens (fun fuel _ => commaLoop parseOrderItem fuel)
    (fun others _ => commaRound parseOrderItem (others ()))
  joins : Advances tokens joinLoop joinRound
  columns : Advances tokens (fun fuel _ => commaLoop parseColumn fuel)
    (fun others _ => commaRound parseColumn (others ()))
  constraints : Advances tokens constraintLoop constraintRound
  insertColumns : Advances tokens (fun fuel _ => closeLoop expectIdentifier fuel)
    (fun others _ => closeRound expectIdentifier (others ()))
  rowValues : Advances tokens (fun fuel _ => closeLoop parseExpression fuel)
    (fun others _ => closeRound parseExpression (others ()))
  valueRows : Advances tokens (fun fuel _ => commaLoop parseValueRow fuel)
    (fun others _ => commaRound parseValueRow (others ()))
  assignments : Advances tokens assignmentLoop assignmentRound

/-- Every loop of the parser uses up tokens. -/
theorem loops_advance (tokens : List Token) : LoopsAdvance tokens where
  selectItems := commaLoop_advances (fun _ => parseSelectItem_safe)
  orderItems := commaLoop_advances (fun _ => parseOrderItem_safe)
  joins := ⟨fun _ => rfl, fun _ _ _ hothers => joinRound_safe trivial (fun item _ => hothers item)⟩
  columns := commaLoop_advances (fun _ => parseColumn_safe)
  constraints := ⟨fun _ => rfl, fun _ _ _ hothers =>
    constraintRound_safe trivial (fun column _ => hothers column)⟩
  insertColumns := closeLoop_advances (fun _ => expectIdentifier_safe)
  rowValues := closeLoop_advances (fun _ => parseExpression_safe)
  valueRows := commaLoop_advances (fun _ => parseValueRow_safe)
  assignments := ⟨fun _ => rfl, fun _ _ _ hothers =>
    assignmentRound_safe (fun _ _ _ => trivial) (fun m _ => hothers m)⟩

/-- Parsing ends with a statement or an error. The tokens end with their only end
of the input, the parser stays at an index of them, and its loops advance. -/
theorem parse_safe (input : Bytes) :
    Ordinary (fun tokens => Lexed tokens ∧ Left tokens tokens.length tokens ∧
      Safe tokens tokens.length parseTokens WellFormed ∧ LoopsAdvance tokens) (lex input) ∧
    Ordinary WellFormed (parse input) := by
  refine ⟨(lex_ordinary input).mono (fun tokens htokens => ?_), parse_ordinary input⟩
  exact ⟨htokens, htokens.left, parseTokens_safe, loops_advance tokens⟩

end SpaceDB.Proofs
