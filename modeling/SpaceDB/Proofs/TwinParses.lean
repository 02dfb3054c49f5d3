import SpaceDB.Lib.TwoRuns
import SpaceDB.Sql.Parser

namespace SpaceDB.Proofs
open Lib Storage Sql ParserM Parser

def movedTo (t : Token) (offset : Nat) : Token := { t with offset := offset }

@[simp] theorem movedTo_keyword (t : Token) (offset : Nat) :
    (movedTo t offset).keyword = t.keyword := rfl

@[simp] theorem movedTo_value (t : Token) (offset : Nat) : (movedTo t offset).value = t.value := rfl

/-- The tokens are the same up to their positions as far as the first semicolon,
at most `n` tokens away; behind it are these. -/
inductive Abreast (after after' : List Token) : Nat → List Token → List Token → Prop where
  | stop {n : Nat} {s : Token} {offset : Nat} (kind : s.kind = .semicolon) :
      Abreast after after' n (s :: after) (movedTo s offset :: after')
  | token {n : Nat} {t : Token} {offset : Nat} {ts us : List Token} (kind : t.kind ≠ .semicolon)
      (inside : t.kind ≠ .endOfInput) (rest : Abreast after after' n ts us) :
      Abreast after after' (n + 1) (t :: ts) (movedTo t offset :: us)

variable {after after' : List Token} {n : Nat} {α β : Type} {p q : ParserM α}
  {Q : α → α → List Token → List Token → Prop}

theorem Abreast.mono {m : Nat} {ts us : List Token}
    (h : Abreast after after' n ts us) (hle : n ≤ m) :
    Abreast after after' m ts us := by
  induction h generalizing m with
  | stop kind => exact .stop kind
  | token kind inside rest ih =>
    obtain ⟨m, rfl⟩ : ∃ k, m = k + 1 := ⟨m - 1, by omega⟩
    exact .token kind inside (ih (by omega))

/-- Run on such tokens the parsers fail both, or make the same and stay before
the semicolon. -/
def Together (after after' : List Token) (n : Nat) (p q : ParserM α) : Prop :=
  Twin (Abreast after after' n) p q (fun a b ts us => a = b ∧ Abreast after after' n ts us)

def AbreastAt (after after' : List Token) (n : Nat) (t : Token) (ts us : List Token) : Prop :=
  Abreast after after' n ts us ∧ ts.head? = some t

section Steps

theorem together_pure (a : α) : Together after after' n (pure a) (pure a) :=
  twin_pure fun _ _ h => ⟨rfl, h⟩

theorem Together.bind {f g : α → ParserM β} (hp : Together after after' n p q)
    (hf : ∀ a, Together after after' n (f a) (g a)) :
    Together after after' n (p >>= f) (q >>= g) := by
  refine Twin.bind hp fun a b ts us h => ?_
  obtain ⟨rfl, h⟩ := h
  exact hf a ts us h

theorem Together.wrap {format format' : String} {args args' : List Arg}
    (h : Together after after' n p q) :
    Together after after' n (ParserM.wrap format args p) (ParserM.wrap format' args' q) :=
    h.mapError

theorem Together.later {m : Nat} (h : Together after after' m p q) (hle : m ≤ n) :
    Twin (Abreast after after' m) p q (fun a b ts us => a = b ∧ Abreast after after' n ts us) :=
  h.mono (fun _ _ hts => hts) fun _ _ _ _ hab => ⟨hab.1, hab.2.mono hle⟩

theorem twin_at {t : Token} (h : Twin (Abreast after after' n) p q Q) :
    Twin (AbreastAt after after' n t) p q Q := h.mono (fun _ _ hts => hts.1) fun _ _ _ _ hab => hab

theorem peek_then {f g : Token → ParserM α}
    (h : ∀ t offset, Twin (AbreastAt after after' n t) (f t) (g (movedTo t offset)) Q) :
    Twin (Abreast after after' n) (peek >>= f) (peek >>= g) Q := by
  intro ts us hts
  cases hts with
  | stop kind => exact h _ _ _ _ ⟨.stop kind, rfl⟩
  | token kind inside rest => exact h _ _ _ _ ⟨.token kind inside rest, rfl⟩

theorem next_inside {u : Token} (h : u.kind ≠ .endOfInput) (rest : List Token) :
    next (u :: rest) = .ok (u, rest) := by
  simp [next, h]

/-- A parser that takes the semicolon fails. -/
theorem next_then {f g : Token → ParserM α}
    (hstop : ∀ t offset, t.kind = .semicolon →
      Twin (fun _ _ => True) (f t) (g (movedTo t offset)) Q)
    (hpass : ∀ t offset m, t.kind ≠ .semicolon → m < n →
      Twin (Abreast after after' m) (f t) (g (movedTo t offset)) Q) :
    Twin (Abreast after after' n) (next >>= f) (next >>= g) Q := by
  intro ts us hts
  cases hts with
  | @stop _ s offset kind =>
    have hinside : s.kind ≠ .endOfInput := by simp [kind]
    rw [bind_apply (next_inside hinside after),
      bind_apply (next_inside (u := movedTo s offset) hinside after')]
    exact hstop s offset kind _ _ trivial
  | @token m t offset ts us kind inside rest =>
    rw [bind_apply (next_inside inside ts),
      bind_apply (next_inside (u := movedTo t offset) inside us)]
    exact hpass t offset m kind (Nat.lt_succ_self m) ts us rest

/-- A token that has been looked at is passed. -/
theorem skip_then {t : Token} (hkind : t.kind ≠ .semicolon)
    (h : ∀ m, m < n → Twin (Abreast after after' m) p q Q) :
    Twin (AbreastAt after after' n t) (next >>= fun _ => p) (next >>= fun _ => q) Q := by
  intro ts us hts
  obtain ⟨hts, ht⟩ := hts
  have hhead : ∀ u ∈ ts.head?, u.kind ≠ .semicolon := by
    intro u hu
    rw [ht] at hu
    cases hu
    exact hkind
  cases hts with
  | stop kind => exact absurd kind (hhead _ rfl)
  | @token m u offset ts us kind inside rest =>
    rw [bind_apply (next_inside inside ts),
      bind_apply (next_inside (u := movedTo u offset) inside us)]
    exact h m (Nat.lt_succ_self m) ts us rest

end Steps

section Words

/-- Besides, a token at least has been taken. -/
def Nearer (after after' : List Token) (n : Nat) (p q : ParserM α) : Prop :=
  Twin (Abreast after after' n) p q
    (fun a b ts us => a = b ∧ ∃ m, m < n ∧ Abreast after after' m ts us)

theorem Nearer.together (h : Nearer after after' n p q) : Together after after' n p q := by
  refine h.mono (fun _ _ hts => hts) fun a b ts us hab => ?_
  obtain ⟨hsame, m, hm, hts⟩ := hab
  exact ⟨hsame, hts.mono hm.le⟩

theorem Nearer.bind {f g : α → ParserM β} (hp : Nearer after after' n p q)
    (hf : ∀ a m, m < n → Together after after' m (f a) (g a)) :
    Together after after' n (p >>= f) (q >>= g) := by
  refine Twin.bind hp fun a b ts us h => ?_
  obtain ⟨rfl, m, hm, hts⟩ := h
  exact (hf a m hm).later hm.le ts us hts

theorem skip_together {t : Token} (hkind : t.kind ≠ .semicolon)
    (h : ∀ m, m < n → Together after after' m p q) :
    Twin (AbreastAt after after' n t) (next >>= fun _ => p) (next >>= fun _ => q)
      (fun a b ts us => a = b ∧ Abreast after after' n ts us) :=
  skip_then hkind fun m hm => (h m hm).later hm.le

theorem stringValue_together (t : Token) (offset : Nat) :
    Together after after' n (stringValue t) (stringValue (movedTo t offset)) := by
  unfold stringValue
  rw [movedTo_value]
  cases t.value with
  | string s => exact together_pure s
  | _ => exact twin_fail _ _

/-- The parsers of one word: they take a token and check it. None of them is
content with the semicolon. -/
theorem word_nearer {c : Token → Prop} [DecidablePred c] {e : Token → Fault} {f : Token → ParserM α}
    (hstop : ∀ t, t.kind = .semicolon → c t) (hmoved : ∀ t offset, c t ↔ c (movedTo t offset))
    (hf : ∀ t offset m, Together after after' m (f t) (f (movedTo t offset))) :
    Nearer after after' n (next >>= fun t => if c t then fail (e t) else f t)
      (next >>= fun t => if c t then fail (e t) else f t) := by
  refine next_then (fun t offset ht => ?_) fun t offset m ht hm => ?_
  · exact twin_ite (hmoved t offset) (fun _ => twin_fail _ _) fun hnot => absurd (hstop t ht) hnot
  · refine twin_ite (hmoved t offset) (fun _ => twin_fail _ _) fun _ => ?_
    refine (hf t offset m).mono (fun _ _ hts => hts) fun a b ts us hab => ?_
    exact ⟨hab.1, m, hm, hab.2⟩

theorem expect_nearer {kind : Kind} (hkind : kind ≠ .semicolon) :
    Nearer after after' n (expect kind) (expect kind) := by
  refine word_nearer (c := fun t => t.kind ≠ kind) (fun t ht => ?_) (fun _ _ => Iff.rfl)
    fun _ _ _ => together_pure ()
  rw [ht]
  exact hkind.symm

theorem expectKeyword_nearer (keyword : Keyword) :
    Nearer after after' n (expectKeyword keyword) (expectKeyword keyword) := by
  refine word_nearer (c := fun t => (!isKeyword t keyword) = true) (fun t ht => ?_)
    (fun _ _ => Iff.rfl)
    fun _ _ _ => together_pure ()
  simp [isKeyword, ht]

theorem expectIdentifier_nearer : Nearer after after' n expectIdentifier expectIdentifier := by
  refine word_nearer (c := fun t => t.kind ≠ .identifier) (fun t ht => ?_) (fun _ _ => Iff.rfl)
    fun t offset _ => stringValue_together t offset
  simp [ht]

theorem isKeyword_kind {t : Token} {keyword : Keyword} (h : isKeyword t keyword = true) :
    t.kind ≠ .semicolon := by
  simp only [isKeyword, Bool.and_eq_true, decide_eq_true_eq] at h
  simp [h.1]

end Words

section Loops
variable {item : ParserM α}

theorem Abreast.tight {ts us : List Token} (h : Abreast after after' n ts us) :
    ∃ m, m ≤ n ∧ m < ts.length ∧ m < us.length ∧ Abreast after after' m ts us := by
  induction h with
  | stop kind => exact ⟨0, by simp, by simp, by simp, .stop kind⟩
  | token kind inside rest ih =>
    obtain ⟨m, hle, hts, hus, hrest⟩ := ih
    exact ⟨m + 1, by omega, by simpa using hts, by simpa using hus, .token kind inside hrest⟩

/-- A loop that goes on alike whenever its fuel lasts to the semicolon. -/
theorem together_fuelled {loop loop' : Nat → ParserM α}
    (h : ∀ m fuel fuel', m < fuel → m < fuel' → Together after after' m (loop fuel) (loop' fuel')) :
    Together after after' n (.fuelled loop) (.fuelled loop') := by
  intro ts us hts
  obtain ⟨m, hle, hfuel, hfuel', hts⟩ := hts.tight
  exact (h m ts.length us.length hfuel hfuel').later hle ts us hts

theorem commaLoop_together (h : ∀ m, Together after after' m item item) (fuel fuel' : Nat)
    (hfuel : n < fuel) (hfuel' : n < fuel') :
    Together after after' n (commaLoop item fuel) (commaLoop item fuel') := by
  induction fuel generalizing fuel' n with
  | zero => omega
  | succ fuel ih =>
    obtain ⟨fuel', rfl⟩ : ∃ k, fuel' = k + 1 := ⟨fuel' - 1, by omega⟩
    unfold commaLoop
    refine (h n).bind fun a => peek_then fun t offset => ?_
    refine twin_ite Iff.rfl (fun hcomma => ?_) fun hcomma => ?_
    · exact twin_at (together_pure [a])
    · refine skip_together (by simp [not_not.mp hcomma]) fun m hm => ?_
      exact (ih fuel' (by omega) (by omega)).bind fun l => together_pure (a :: l)

theorem closeLoop_together (h : ∀ m, Together after after' m item item) (fuel fuel' : Nat)
    (hfuel : n < fuel) (hfuel' : n < fuel') :
    Together after after' n (closeLoop item fuel) (closeLoop item fuel') := by
  induction fuel generalizing fuel' n with
  | zero => omega
  | succ fuel ih =>
    obtain ⟨fuel', rfl⟩ : ∃ k, fuel' = k + 1 := ⟨fuel' - 1, by omega⟩
    unfold closeLoop
    refine peek_then fun t offset => ?_
    refine twin_ite Iff.rfl (fun hclose => ?_) fun hclose => ?_
    · exact twin_at (together_pure [])
    · refine twin_at ((expect_nearer (by simp)).bind fun _ m hm => (h m).bind fun a => ?_)
      exact (ih fuel' (by omega) (by omega)).bind fun l => together_pure (a :: l)

theorem parenthesised_together (h : ∀ m, Together after after' m item item) :
    Together after after' n (parenthesised item) (parenthesised item) := by
  refine (h n).bind fun a => (together_fuelled fun m => closeLoop_together h).bind fun l => ?_
  exact (expect_nearer (by simp)).together.bind fun _ => together_pure (a :: l)

theorem optional_together (keyword : Keyword) (h : ∀ m, Together after after' m p q) :
    Together after after' n (optional keyword p) (optional keyword q) := by
  refine peek_then fun t offset => ?_
  refine twin_ite Iff.rfl (fun hkeyword => ?_) fun hkeyword => ?_
  · exact twin_at (together_pure none)
  · have hkind := isKeyword_kind (by simpa using hkeyword : isKeyword t keyword = true)
    exact skip_together hkind fun m _ => (h m).bind fun a => together_pure (some a)

end Loops

section Productions

/-- Expressions are parsed alike. -/
theorem parseExpression_together : Together after after' n parseExpression parseExpression := by
  refine next_then (fun t offset ht => ?_) fun t offset m ht hm => ?_
  · simp only [movedTo, ht]
    exact twin_fail _ _
  · refine Together.later ?_ hm.le
    simp only [movedTo]
    cases t.kind with
    | identifier =>
      refine (stringValue_together t offset).bind fun name => peek_then fun u offset => ?_
      refine twin_ite Iff.rfl (fun hopen => ?_) fun hopen => ?_
      · exact twin_at (together_pure _)
      · refine skip_together (by simp [not_not.mp hopen]) fun k _ => ?_
        refine expectIdentifier_nearer.together.wrap.bind fun argument => ?_
        exact (expect_nearer (by simp)).together.wrap.bind fun _ => together_pure _
    | string => exact (stringValue_together t offset).bind fun s => together_pure _
    | number =>
      dsimp only
      cases t.value with
      | int64 value => exact together_pure _
      | float64 value => exact together_pure _
      | _ => exact twin_fail _ _
    | keywordKind =>
      dsimp only
      split
      · exact together_pure _
      · exact together_pure _
      · exact together_pure _
      · exact twin_fail _ _
    | _ => exact twin_fail _ _

theorem parseComparison_together :
    Together after after' n parseComparisonExpression parseComparisonExpression := by
  refine (Together.wrap parseExpression_together).bind fun left => ?_
  refine next_then (fun t offset ht => ?_) fun t offset m ht hm => ?_
  · simp only [movedTo, ht, operationOf]
    exact twin_fail _ _
  · refine Together.later ?_ hm.le
    simp only [movedTo]
    cases operationOf t.kind with
    | none => exact twin_fail _ _
    | some kind => exact (Together.wrap parseExpression_together).bind fun right => together_pure _

theorem parseOptionalComparison_together (keyword : Keyword) :
    Together after after' n (parseOptionalComparison keyword) (parseOptionalComparison keyword) :=
  optional_together keyword fun _ => parseComparison_together.wrap

theorem parseJoinType_together : Together after after' n parseJoinType parseJoinType := by
  refine peek_then fun t offset => ?_
  refine twin_ite Iff.rfl (fun hkeyword => ?_) fun hkeyword => ?_
  · exact twin_at (together_pure none)
  · have hkind : t.kind ≠ .semicolon := by simp [not_not.mp hkeyword]
    rw [movedTo_keyword]
    have hjoin : ∀ {type : JoinType} {m : Nat}, Together after after' m
        (expectKeyword .keywordJoin >>= fun _ => pure (some type))
        (expectKeyword .keywordJoin >>= fun _ => pure (some type)) := fun {_ _} =>
      (expectKeyword_nearer _).together.bind fun _ => together_pure _
    split
    · exact skip_together hkind fun m _ => hjoin
    · exact skip_together hkind fun m _ => together_pure _
    · exact skip_together hkind fun m _ => hjoin
    · exact skip_together hkind fun m _ => hjoin
    · exact twin_at (together_pure none)

theorem parseJoinPredicate_together (joinType : JoinType) :
    Together after after' n (parseJoinPredicate joinType) (parseJoinPredicate joinType) := by
  unfold parseJoinPredicate
  split_ifs
  · exact together_pure none
  all_goals
    refine (expectKeyword_nearer _).together.bind fun _ =>
      (Together.wrap parseExpression_together).bind fun left => ?_
    refine (expect_nearer (by simp)).together.bind fun _ => ?_
    exact (Together.wrap parseExpression_together).bind fun right => together_pure _

theorem joinLoop_together (fuel fuel' : Nat) (hfuel : n < fuel) (hfuel' : n < fuel')
    (item : FromItem) :
    Together after after' n (joinLoop fuel item) (joinLoop fuel' item) := by
  induction fuel generalizing fuel' n item with
  | zero => omega
  | succ fuel ih =>
    obtain ⟨fuel', rfl⟩ : ∃ k, fuel' = k + 1 := ⟨fuel' - 1, by omega⟩
    unfold joinLoop
    refine parseJoinType_together.bind fun found => ?_
    cases found with
    | none => exact together_pure item
    | some joinType =>
      refine expectIdentifier_nearer.bind fun name m hm => ?_
      refine (parseJoinPredicate_together joinType).bind fun predicate => ?_
      exact ih fuel' (by omega) (by omega) _

theorem parseFromClause_together : Together after after' n parseFromClause parseFromClause := by
  refine (expectKeyword_nearer _).together.bind fun _ =>
    expectIdentifier_nearer.together.bind fun name => ?_
  exact together_fuelled fun m fuel fuel' hfuel hfuel' =>
    joinLoop_together fuel fuel' hfuel hfuel' _

theorem parseSelectItem_together : Together after after' n parseSelectItem parseSelectItem := by
  refine (Together.wrap parseExpression_together).bind fun expression => ?_
  refine (optional_together _ fun _ => expectIdentifier_nearer.together.wrap).bind
    fun aliasName => ?_
  exact together_pure _

theorem parseSelectItems_together : Together after after' n parseSelectItems parseSelectItems := by
  refine peek_then fun t offset => ?_
  refine twin_ite Iff.rfl (fun hasterisk => ?_) fun hasterisk => ?_
  · exact skip_together (by simp [hasterisk]) fun m _ => together_pure []
  · exact twin_at (together_fuelled fun m => commaLoop_together fun _ => parseSelectItem_together)

theorem parseGroupBy_together : Together after after' n parseGroupBy parseGroupBy :=
  optional_together _ fun _ =>
    (expectKeyword_nearer _).together.wrap.bind fun _ => .wrap parseExpression_together

theorem parseOrderItem_together : Together after after' n parseOrderItem parseOrderItem := by
  refine expectIdentifier_nearer.together.bind fun name => peek_then fun t offset => ?_
  refine twin_ite Iff.rfl (fun hasc => ?_) fun _ => twin_ite Iff.rfl (fun hdesc => ?_) fun _ => ?_
  · exact skip_together (isKeyword_kind hasc) fun m _ => together_pure _
  · exact skip_together (isKeyword_kind hdesc) fun m _ => together_pure _
  · exact twin_at (together_pure _)

theorem parseOrderBy_together : Together after after' n parseOrderBy parseOrderBy := by
  refine peek_then fun t offset => ?_
  refine twin_ite Iff.rfl (fun hkeyword => ?_) fun hkeyword => ?_
  · exact twin_at (together_pure [])
  · have hkind := isKeyword_kind (by simpa using hkeyword : isKeyword t .keywordOrder = true)
    refine skip_together hkind fun m _ => (expectKeyword_nearer _).together.bind fun _ => ?_
    exact together_fuelled fun m => commaLoop_together fun _ => parseOrderItem_together

theorem parseSelect_together : Together after after' n parseSelect parseSelect := by
  refine (expectKeyword_nearer _).together.bind fun _ =>
    parseSelectItems_together.bind fun items => ?_
  refine parseFromClause_together.wrap.bind fun fromItem => ?_
  refine (parseOptionalComparison_together _).bind fun whereClause => ?_
  refine parseGroupBy_together.bind fun groupBy => ?_
  refine (parseOptionalComparison_together _).bind fun having => ?_
  refine parseOrderBy_together.bind fun orderBy => ?_
  refine (optional_together _ fun _ => .wrap parseExpression_together).bind fun limit => ?_
  exact (optional_together _ fun _ => .wrap parseExpression_together).bind fun offset =>
    together_pure _

theorem constraintLoop_together (fuel fuel' : Nat) (hfuel : n < fuel) (hfuel' : n < fuel')
    (column : ColumnDef) :
    Together after after' n (constraintLoop fuel column) (constraintLoop fuel' column) := by
  induction fuel generalizing fuel' n column with
  | zero => omega
  | succ fuel ih =>
    obtain ⟨fuel', rfl⟩ : ∃ k, fuel' = k + 1 := ⟨fuel' - 1, by omega⟩
    unfold constraintLoop
    refine peek_then fun t offset => ?_
    refine twin_ite Iff.rfl (fun hkeyword => ?_) fun hkeyword => ?_
    · exact twin_at (together_pure column)
    · have hkind : t.kind ≠ .semicolon := by simp [not_not.mp hkeyword]
      simp only [movedTo]
      split
      · exact skip_together hkind fun m hm => ih fuel' (by omega) (by omega) _
      · refine skip_together hkind fun m hm => (expectKeyword_nearer _).together.bind fun _ => ?_
        exact ih fuel' (by omega) (by omega) _
      · refine skip_together hkind fun m hm =>
          Together.bind parseExpression_together fun expression => ?_
        exact ih fuel' (by omega) (by omega) _
      · refine skip_together hkind fun m hm => (expectKeyword_nearer _).together.bind fun _ => ?_
        exact ih fuel' (by omega) (by omega) _
      · exact twin_fail _ _

theorem parseColumn_together : Together after after' n parseColumn parseColumn := by
  refine expectIdentifier_nearer.together.bind fun name => ?_
  refine next_then (fun t offset ht => ?_) fun t offset m ht hm => ?_
  · simp only [movedTo, ht]
    exact twin_fail _ _
  · refine Together.later ?_ hm.le
    refine twin_ite Iff.rfl (fun _ => ?_) fun _ => ?_
    · exact twin_fail _ _
    · simp only [movedTo]
      cases t.keyword.bind keywordDataType with
      | none => exact twin_fail _ _
      | some dataType =>
        exact together_fuelled fun k fuel fuel' hfuel hfuel' =>
          constraintLoop_together fuel fuel' hfuel hfuel' _

theorem parseCreateTable_together : Together after after' n parseCreateTable parseCreateTable := by
  refine (expectKeyword_nearer _).together.bind fun _ =>
    (expectKeyword_nearer _).together.bind fun _ => ?_
  refine expectIdentifier_nearer.together.bind fun name =>
    (expect_nearer (by simp)).together.bind fun _ => ?_
  refine (together_fuelled fun m => commaLoop_together fun _ => parseColumn_together).bind
    fun columns => ?_
  exact (expect_nearer (by simp)).together.bind fun _ => together_pure _

theorem parseInsertColumns_together :
    Together after after' n parseInsertColumns parseInsertColumns := by
  refine peek_then fun t offset => ?_
  refine twin_ite Iff.rfl (fun hopen => ?_) fun hopen => ?_
  · exact twin_at (together_pure [])
  · exact skip_together (by simp [not_not.mp hopen]) fun m _ =>
      parenthesised_together fun _ => expectIdentifier_nearer.together

theorem parseValueRow_together : Together after after' n parseValueRow parseValueRow :=
  (expect_nearer (by simp)).together.bind fun _ => parenthesised_together fun _ =>
    parseExpression_together

theorem parseInsert_together : Together after after' n parseInsert parseInsert := by
  refine (expectKeyword_nearer _).together.bind fun _ =>
    (expectKeyword_nearer _).together.bind fun _ => ?_
  refine expectIdentifier_nearer.together.bind fun name =>
    parseInsertColumns_together.bind fun columns => ?_
  refine (expectKeyword_nearer _).together.bind fun _ => ?_
  refine (together_fuelled fun m => commaLoop_together fun _ => parseValueRow_together).bind
    fun values => ?_
  exact together_pure _

theorem assignmentLoop_together (fuel fuel' : Nat) (hfuel : n < fuel) (hfuel' : n < fuel')
    (assignments : OrderedMap Bytes Expression) :
    Together after after' n (assignmentLoop fuel assignments)
      (assignmentLoop fuel' assignments) := by
  induction fuel generalizing fuel' n assignments with
  | zero => omega
  | succ fuel ih =>
    obtain ⟨fuel', rfl⟩ : ∃ k, fuel' = k + 1 := ⟨fuel' - 1, by omega⟩
    unfold assignmentLoop
    refine peek_then fun t offset => twin_at (expectIdentifier_nearer.bind fun name m hm => ?_)
    refine (expect_nearer (by simp)).together.bind fun _ =>
      Together.bind parseExpression_together fun value => ?_
    split_ifs
    · exact twin_fail _ _
    · refine peek_then fun u offset => ?_
      refine twin_ite Iff.rfl (fun hcomma => ?_) fun hcomma => ?_
      · exact twin_at (together_pure _)
      · exact skip_together (by simp [not_not.mp hcomma]) fun k hk =>
          ih fuel' (by omega) (by omega) _

theorem parseUpdate_together : Together after after' n parseUpdate parseUpdate := by
  refine (expectKeyword_nearer _).together.bind fun _ =>
    expectIdentifier_nearer.together.bind fun name => ?_
  refine (expectKeyword_nearer _).together.bind fun _ => ?_
  refine (together_fuelled fun m fuel fuel' hfuel hfuel' =>
    assignmentLoop_together fuel fuel' hfuel hfuel' _).bind fun assignments => ?_
  exact (parseOptionalComparison_together _).bind fun filter => together_pure _

theorem parseDelete_together : Together after after' n parseDelete parseDelete := by
  refine (expectKeyword_nearer _).together.bind fun _ =>
    (expectKeyword_nearer _).together.bind fun _ => ?_
  refine expectIdentifier_nearer.together.bind fun name => ?_
  exact (parseOptionalComparison_together _).bind fun filter => together_pure _

/-- Statements are parsed alike as far as the semicolon. -/
theorem parseStatement_together : Together after after' n parseStatement parseStatement := by
  refine peek_then fun t offset => twin_at ?_
  refine twin_ite Iff.rfl (fun _ => ?_) fun _ => twin_ite Iff.rfl (fun _ => ?_) fun _ => ?_
  · exact twin_fail _ _
  · exact twin_fail _ _
  · rw [movedTo_keyword]
    split
    · exact parseSelect_together.bind fun s => together_pure _
    · exact parseCreateTable_together.bind fun s => together_pure _
    · exact parseInsert_together.bind fun s => together_pure _
    · exact parseUpdate_together.bind fun s => together_pure _
    · exact parseDelete_together.bind fun s => together_pure _
    · exact twin_fail _ _

end Productions

end SpaceDB.Proofs
