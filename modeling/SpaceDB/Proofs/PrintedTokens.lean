import SpaceDB.Proofs.Printer
import SpaceDB.Proofs.Tiling

namespace SpaceDB.Proofs
open Lib Storage Sql

theorem decimal_append (a b : Bytes) :
    decimal (a ++ b) = decimal a * 10 ^ b.length + decimal b := by
  have hfold : ∀ n, b.foldl (fun n c => 10 * n + (c.val - 48)) n =
      n * 10 ^ b.length + decimal b := by
    induction b with
    | nil => simp [decimal]
    | cons c b ih =>
      intro n
      unfold decimal
      rw [List.foldl_cons, List.foldl_cons, ih, ih (10 * 0 + _), List.length_cons]
      ring
  unfold decimal
  rw [List.foldl_append]
  exact hfold _

theorem digits_length (k n : Nat) : (digits k n).length = k := by
  induction k generalizing n with
  | zero => rfl
  | succ k ih => simp [digits, ih]

theorem digit_val (n : Nat) : (Fin.ofNat 256 (48 + n % 10)).val = 48 + n % 10 :=
  Nat.mod_eq_of_lt (by omega)

theorem digits_isDigit (k n : Nat) : ∀ b ∈ digits k n, isDigit b = true := by
  induction k generalizing n with
  | zero => simp [digits]
  | succ k ih =>
    intro b hb
    rcases List.mem_append.mp hb with hb | hb
    · exact ih _ b hb
    · have hval := digit_val n
      rw [← List.mem_singleton.mp hb] at hval
      simp only [isDigit, Bool.and_eq_true, decide_eq_true_eq, Fin.le_def, hval]
      exact ⟨Nat.le_add_right _ _, by change 48 + n % 10 ≤ 57; omega⟩

/-- The last `k` digits are the number modulo `10 ^ k`. -/
theorem decimal_digits (k n : Nat) : decimal (digits k n) = n % 10 ^ k := by
  induction k generalizing n with
  | zero => simp [digits, decimal, Nat.mod_one]
  | succ k ih =>
    have hlast : decimal [Fin.ofNat 256 (48 + n % 10)] = n % 10 := by
      simp only [decimal, List.foldl_cons, List.foldl_nil, digit_val]
      omega
    rw [digits, decimal_append, ih, hlast, pow_succ', Nat.mod_mul]
    simp only [List.length_singleton, pow_one]
    ring

theorem decimal_numeral (n : Nat) : decimal (numeral n) = n := by
  unfold numeral
  rw [decimal_digits]
  exact Nat.mod_eq_of_lt (Nat.lt_pow_succ_log_self (by decide) n)

theorem numeral_ne_nil (n : Nat) : numeral n ≠ [] := by
  apply List.ne_nil_of_length_pos
  rw [numeral, digits_length]
  exact Nat.succ_pos _

theorem parseInt_numeral {i : Sql.Int64} (h : 0 ≤ i.val) :
    parseInt (numeral i.val.toNat) = some i := by
  have hlt := i.property.2
  unfold parseInt
  simp only [decimal_numeral]
  rw [dif_pos (by omega)]
  exact congrArg some (Subtype.ext (Int.toNat_of_nonneg h))

/-- A number is read back from its exact value to enough decimal places. -/
theorem parseFloat_exact {f : Float64} {k : Nat} (hsign : f.negative = false)
    (hfinite : f.finite = true)
    (hk : Float64.nearest (f.units * 5 ^ k) (10 ^ k) = f.magnitude) :
    parseFloat (numeral (f.units * 5 ^ k / 10 ^ k) ++ 46 :: digits k (f.units * 5 ^ k)) =
      some f := by
  have hmag : f.magnitude < Float64.infinite := of_decide_eq_true hfinite
  have hwhole : ∀ b ∈ numeral (f.units * 5 ^ k / 10 ^ k), isDigit b = true := digits_isDigit _ _
  have hpoint : ∀ c ∈ (46 :: digits k (f.units * 5 ^ k) : Bytes).head?, isDigit c = false := by
    simp
    decide
  unfold parseFloat
  simp only [takeWhile_run hwhole hpoint, List.drop_length_add_append,
    List.drop_one, List.tail_cons, decimal_append, decimal_numeral, decimal_digits, digits_length,
    Nat.div_add_mod']
  rw [hk, if_pos hmag, ← hsign]
  exact congrArg some (Float64.ofMagnitude_magnitude f)

/-- In units of the last binary place, five to the number of places turns the
quotient by a power of two into one by a power of ten. -/
theorem nearest_decimal (f : Float64) (hf : f.magnitude ≤ Float64.infinite) {k : Nat}
    (hk : 1074 = k) : Float64.nearest (f.units * 5 ^ k) (10 ^ k) = f.magnitude := by
  have hpow : 10 ^ k = 2 ^ k * 5 ^ k := Nat.mul_pow 2 5 k
  have hfive : 0 < 5 ^ k := Nat.pow_pos (by decide)
  rw [hpow, ← hk]
  rw [← hk] at hfive
  exact Float64.nearest_units f hf hfive

def exactForm : DecimalForm where
  whole f := numeral (f.units * 5 ^ 1074 / 10 ^ 1074)
  fraction f := digits 1074 (f.units * 5 ^ 1074)
  whole_digits _ := digits_isDigit _ _
  whole_ne_nil _ := numeral_ne_nil _
  fraction_digits _ := digits_isDigit _ _
  fraction_ne_nil f := by
    apply List.ne_nil_of_length_pos
    rw [digits_length]
    exact Nat.succ_pos _
  back f hsign hfinite :=
    parseFloat_exact hsign hfinite (nearest_decimal f (of_decide_eq_true hfinite).le rfl)

theorem upper_start {b : Byte} (h : 65 ≤ b.val ∧ b.val ≤ 90) : isIdentifierStart b = true := by
  revert b
  decide +kernel

/-- Every keyword is recognised from its own text. -/
theorem keyword_text (k : Keyword) : (∃ b rest, k.text = b :: rest ∧ isIdentifierStart b = true) ∧
    (∀ c ∈ k.text, isIdentifierPart c = true) ∧ keywordFromIdentifier k.text = some k := by
  have hupper : ∀ k ∈ Keyword.all, k.text ≠ [] ∧ ∀ n ∈ k.text.map Fin.val, 65 ≤ n ∧ n ≤ 90 := by
    decide +kernel
  have hfound : ∀ k ∈ Keyword.all, keywordFromIdentifier k.text = some k := by decide +kernel
  obtain ⟨hne, hrange⟩ := hupper k (keyword_mem_all k)
  have hstart : ∀ c ∈ k.text, isIdentifierStart c = true :=
    fun c hc => upper_start (hrange c.val (List.mem_map_of_mem hc))
  refine ⟨?_, ?_, hfound k (keyword_mem_all k)⟩
  · obtain ⟨b, rest, htext⟩ := List.exists_cons_of_ne_nil hne
    exact ⟨b, rest, htext, hstart b (by simp [htext])⟩
  · intro c hc
    simp [isIdentifierPart, hstart c hc]

theorem lower_part {b : Byte} (h : lowerPart b) : isIdentifierPart b = true ∧ toLower b = b := by
  unfold lowerPart lowerStart at h
  revert b
  decide +kernel

theorem lower_start {b : Byte} (h : lowerStart b) : isIdentifierStart b = true := by
  unfold lowerStart at h
  revert b
  decide +kernel

theorem Identifier.parts {name : Bytes} (h : Identifier name) : ∀ c ∈ name, lowerPart c := by
  obtain ⟨b, rest, rfl, hb, hrest⟩ := h.start
  exact List.forall_mem_cons.mpr ⟨.inl hb, hrest⟩

/-- A space before a token is skipped. -/
theorem next_space (rest : Bytes) (o : Nat) :
    Lexer.next ⟨32 :: rest, o⟩ = Lexer.next ⟨rest, o + 1⟩ := by
  unfold Lexer.next Lexer.skipWhitespace Lexer.skip
  rw [List.takeWhile_cons_of_pos (by decide), List.length_cons, List.drop_succ_cons]
  simp only [Nat.add_assoc, Nat.add_comm 1]

/-- A space ends the longest text of every class. -/
theorem longest_before_space {c : TextClass} {text : Bytes} (h : c.Matches text) (rest : Bytes) :
    Longest c text (32 :: rest) := by
  cases c with
  | word => exact longest_of_run (fun _ => word_parts) (by simp; decide)
  | integer => exact longest_of_run (fun _ h => h.2) (by simp; decide)
  | decimal =>
    obtain ⟨whole, fraction, rfl, ⟨-, hwhole⟩, -⟩ := h
    exact longest_decimal hwhole (by simp; decide)
  | quoted =>
    obtain ⟨s, rfl, -⟩ := h
    exact longest_quoted s _
  | symbol =>
    obtain ⟨b, kind, rfl, -⟩ := h
    exact longest_symbol b _

/-- A word is printed as a text that stands for its token. -/
theorem Word.Ok.means (form : DecimalForm) {w : Word} (h : w.Ok) (o : Nat) :
    ∃ c : TextClass, c.Matches (w.text form) ∧ Means c (w.text form) (w.token o) := by
  cases w with
  | keyword k =>
    obtain ⟨⟨b, rest, htext, hb⟩, hpart, hkeyword⟩ := keyword_text k
    refine ⟨.word, ⟨b, rest, htext, hb, ?_⟩, .keyword (keywordFromIdentifier_some.mp hkeyword)⟩
    intro c hc
    exact hpart c (by simp [htext, hc])
  | name s =>
    have hlower : s.map toLower = s := by
      nth_rewrite 2 [← List.map_id s]
      exact List.map_congr_left (fun c hc => (lower_part (Identifier.parts h c hc)).2)
    have hmeans : Means .word s ⟨.identifier, none, .string (s.map toLower), o⟩ :=
      .identifier (keywordFromIdentifier_none.mp h.free)
    rw [hlower] at hmeans
    obtain ⟨b, tail, htext, hb, htail⟩ := h.start
    exact ⟨.word, ⟨b, tail, htext, lower_start hb, fun c hc => (lower_part (htail c hc)).1⟩, hmeans⟩
  | integer i =>
    exact ⟨.integer, ⟨numeral_ne_nil _, digits_isDigit _ _⟩,
      .integer (parseInt_some.mp (parseInt_numeral h))⟩
  | float f =>
    exact ⟨.decimal, ⟨_, _, rfl, ⟨form.whole_ne_nil f, form.whole_digits f⟩, form.fraction_ne_nil f,
      form.fraction_digits f⟩, .decimal (form.back f h.1 h.2)⟩
  | string s => exact ⟨.quoted, ⟨s, rfl, h⟩, .quoted⟩
  | symbol kind =>
    cases kind with
    | openParen | closeParen | comma | semicolon | asterisk | equal | greaterThan | lessThan =>
      exact ⟨.symbol, ⟨_, _, rfl, rfl⟩, .symbol rfl⟩
    | _ => exact absurd rfl h

/-- A word that a space follows is scanned as its token. -/
theorem next_word (form : DecimalForm) {w : Word} (h : w.Ok) (rest : Bytes) (o : Nat) :
    Lexer.next ⟨w.text form ++ 32 :: rest, o⟩ =
      .ok (w.token o, ⟨32 :: rest, o + (w.text form).length⟩) := by
  have hoffset : (w.token o).offset = o := by cases w <;> rfl
  obtain ⟨c, hfits, hmeans⟩ := h.means form o
  have hscan := scan_text hfits (longest_before_space hfits rest) hmeans (by simp)
  rw [hoffset] at hscan
  obtain ⟨b, tail, htext, hspace, -⟩ := hfits.head
  unfold Lexer.next Lexer.skipWhitespace
  rw [htext, List.cons_append, List.takeWhile_cons_of_neg (by simp [hspace]), ← List.cons_append,
    ← htext]
  exact hscan

theorem tokenizeAll_space (fuel : Nat) (rest : Bytes) (o : Nat) :
    Lexer.tokenizeAll fuel ⟨32 :: rest, o⟩ = Lexer.tokenizeAll fuel ⟨rest, o + 1⟩ := by
  cases fuel with
  | zero => rfl
  | succ fuel =>
    unfold Lexer.tokenizeAll
    rw [next_space]

theorem Word.Ok.kind {w : Word} (h : w.Ok) (o : Nat) : (w.token o).kind ≠ .endOfInput := by
  cases w with
  | symbol kind =>
    cases kind with
    | endOfInput => exact absurd rfl h
    | _ => simp [Word.token]
  | _ => simp [Word.token]

/-- Words that can be written are scanned one by one. -/
theorem tokenizeAll_spaced (form : DecimalForm) {ws : List Word} (h : ∀ w ∈ ws, w.Ok)
    {fuel : Nat} (hfuel : ws.length + 2 ≤ fuel) (o : Nat) :
    ∃ ts o', Lexer.tokenizeAll fuel ⟨spaced form ws, o⟩ =
        .ok (ts ++ [(Word.symbol .semicolon).token o', (Word.symbol .endOfInput).token (o' + 1)]) ∧
      List.Forall₂ Word.Spells ws ts := by
  induction ws generalizing fuel o with
  | nil =>
    obtain ⟨fuel, rfl⟩ := Nat.exists_eq_add_of_le' hfuel
    exact ⟨[], o, rfl, .nil⟩
  | cons w ws ih =>
    obtain ⟨fuel, rfl⟩ := Nat.exists_eq_add_of_le' (le_trans (Nat.le_add_left 1 _) hfuel)
    have hw := h w List.mem_cons_self
    obtain ⟨ts, o', hts, hspell⟩ := ih (fun v hv => h v (List.mem_cons_of_mem _ hv))
      (by simp at hfuel; omega) (o + (w.text form).length + 1)
    refine ⟨w.token o :: ts, o', ?_, .cons ⟨o, rfl⟩ hspell⟩
    unfold spaced Lexer.tokenizeAll
    rw [next_word form hw]
    simp only [if_neg (hw.kind o), tokenizeAll_space, hts]
    rfl

theorem spaced_length (form : DecimalForm) {ws : List Word} :
    ws.length + 1 ≤ (spaced form ws).length := by
  induction ws with
  | nil => exact Nat.le_refl _
  | cons w ws ih =>
    simp only [spaced, List.length_append, List.length_cons]
    omega

theorem lex_spaced (form : DecimalForm) {ws : List Word} (h : ∀ w ∈ ws, w.Ok) :
    ∃ ts o, lex (spaced form ws) =
        .ok (ts ++ [(Word.symbol .semicolon).token o, (Word.symbol .endOfInput).token (o + 1)]) ∧
      List.Forall₂ Word.Spells ws ts :=
  tokenizeAll_spaced form h (Nat.succ_le_succ (spaced_length form)) 0

def Written (ws : List Word) : Prop := ∀ w ∈ ws, w.Ok

theorem written_nil : Written [] := List.forall_mem_nil _

theorem Written.cons {w : Word} {ws : List Word} (hw : w.Ok) (h : Written ws) :
    Written (w :: ws) := List.forall_mem_cons.mpr ⟨hw, h⟩

theorem Written.append {ws ws' : List Word} (h : Written ws) (h' : Written ws') :
    Written (ws ++ ws') := List.forall_mem_append.mpr ⟨h, h'⟩

theorem Written.keyword {k : Keyword} {ws : List Word} (h : Written ws) :
    Written (.keyword k :: ws) := h.cons trivial

theorem Written.symbol {kind : Kind} {ws : List Word} (hkind : symbolText kind ≠ [])
    (h : Written ws) : Written (.symbol kind :: ws) := h.cons hkind

theorem Written.name {s : Bytes} {ws : List Word} (hname : Identifier s) (h : Written ws) :
    Written (.name s :: ws) := h.cons hname

theorem written_comma {α : Type} {words : α → List Word} {l : List α}
    (h : ∀ a ∈ l, Written (words a)) : Written (commaWords (l.map words)) := by
  cases l with
  | nil => exact written_nil
  | cons a l =>
    obtain ⟨ha, hl⟩ := List.forall_mem_cons.mp h
    apply ha.append
    simp only [Written, List.mem_flatMap, List.mem_map]
    rintro w ⟨ws, ⟨b, hb, rfl⟩, hw⟩
    exact (hl b hb).symbol (by decide) w hw

theorem written_parenthesised {α : Type} {words : α → List Word} {l : List α}
    (h : ∀ a ∈ l, Written (words a)) : Written (parenthesisedWords (l.map words)) := by
  apply Written.symbol (by decide)
  exact (written_comma h).append (written_nil.symbol (by decide))

theorem written_optional {α : Type} (k : Keyword) {words : α → List Word} {o : Option α}
    (h : Given (fun a => Written (words a)) o) : Written (optionalWords k words o) := by
  cases o with
  | none => exact written_nil
  | some a => exact (h a rfl).keyword

theorem written_operand {e : Expression} (h : Operand e) : Written (operandWords e) := by
  cases h with
  | null => exact written_nil.keyword
  | boolean b => exact written_nil.keyword
  | integer hnonneg => exact written_nil.cons hnonneg
  | float hsign hfinite => exact written_nil.cons ⟨hsign, hfinite⟩
  | string hfree => exact written_nil.cons hfree
  | column hname => exact written_nil.name hname
  | function hname hargument =>
    apply Written.name hname
    apply Written.symbol (by decide)
    exact (written_nil.symbol (by decide)).name hargument

theorem written_comparison {e : Expression} (h : Comparison e) : Written (comparisonWords e) := by
  obtain ⟨kind, hleft, hright⟩ := h
  apply (written_operand hleft).append
  apply (written_operand hright).symbol
  cases kind <;> decide

theorem written_join (type : JoinType) : Written (joinWords type) := by
  cases type with
  | joinInner => exact written_nil.keyword
  | _ => exact written_nil.keyword.keyword

theorem written_condition {type : JoinType} {left right : Expression} (hleft : Operand left)
    (hright : Operand right) :
    Written (conditionWords type (some (.operation .operationEqual left right))) := by
  apply Written.keyword
  split_ifs
  · exact (written_operand hright).append ((written_operand hleft).symbol (by decide))
  · exact (written_operand hleft).append ((written_operand hright).symbol (by decide))

theorem written_from {item : FromItem} (h : JoinChain item) : Written (fromWords item) := by
  induction h with
  | table hname => exact written_nil.name hname
  | cross hchain hname ih => exact ih.append ((written_join _).append (written_nil.name hname))
  | on hchain hname htype hleft hright ih =>
    exact ih.append ((written_join _).append ((written_condition hleft hright).name hname))

theorem written_select {s : SelectStatement} (h : SelectOk s) : Written (selectWords s) := by
  have hcomparison : ∀ k (o : Option Expression), Given Comparison o →
      Written (optionalWords k comparisonWords o) :=
    fun k o ho => written_optional k (fun e he => written_comparison (ho e he))
  have hoperand : ∀ k (o : Option Expression), Given Operand o →
      Written (optionalWords k operandWords o) :=
    fun k o ho => written_optional k (fun e he => written_operand (ho e he))
  have hitems : Written (selectItemsWords s.selectItems) := by
    unfold selectItemsWords
    split_ifs
    · exact written_nil.symbol (by decide)
    · apply written_comma
      intro item hitem
      apply (written_operand (h.items item hitem).expression).append
      exact written_optional _ (fun name hname => written_nil.name
        ((h.items item hitem).aliasName name hname))
  have horder : Written (orderByWords s.orderBy) := by
    unfold orderByWords
    split_ifs
    · exact written_nil
    · exact (written_comma (fun o ho => written_nil.keyword.name (h.orderBy o ho))).keyword.keyword
  have hgroup := written_optional .keywordGroup
    (fun e he => (written_operand (h.groupBy e he)).keyword (k := .keywordBy))
  apply Written.keyword
  apply hitems.append
  apply (written_from h.chain).keyword.append
  apply (hcomparison _ _ h.whereClause).append
  apply hgroup.append
  apply (hcomparison _ _ h.having).append
  apply horder.append
  exact (hoperand _ _ h.limit).append (hoperand _ _ h.offset)

theorem written_column {c : ColumnDef} (h : ColumnOk c) : Written (columnWords c) := by
  have hnullable : Written (nullableWords c.nullable) := by
    unfold nullableWords
    split
    · exact written_nil
    · exact written_nil.keyword
    · exact written_nil.keyword.keyword
  have hprimary : Written (primaryKeyWords c.primaryKey) := by
    unfold primaryKeyWords
    split_ifs
    · exact written_nil.keyword.keyword
    · exact written_nil
  apply Written.name h.name
  apply Written.keyword
  apply hnullable.append
  apply (written_optional _ (fun e he => written_operand (h.default e he))).append
  exact hprimary

/-- Every word of a well-formed statement can be written. -/
theorem written_statement {s : Statement} (h : Described s) : Written (statementWords s) := by
  have hfilter : ∀ filter : Option Expression, Given Comparison filter →
      Written (optionalWords .keywordWhere comparisonWords filter) :=
    fun filter ho => written_optional _ (fun e he => written_comparison (ho e he))
  cases s with
  | select s => exact written_select h
  | createTable s =>
    obtain ⟨hname, hcolumns⟩ := h
    apply Written.keyword
    apply Written.keyword
    exact (written_parenthesised (fun c hc => written_column (hcolumns c hc))).name hname
  | insert s =>
    obtain ⟨hname, hcolumns, -, hvalues⟩ := h
    have hlist : Written (insertColumnsWords s.columns) := by
      unfold insertColumnsWords
      split_ifs
      · exact written_nil
      · exact written_parenthesised (fun c hc => written_nil.name (hcolumns c hc))
    apply Written.keyword
    apply Written.keyword
    apply Written.name hname
    apply hlist.append
    apply Written.keyword
    apply written_comma
    intro row hrow
    exact written_parenthesised (fun e he => written_operand ((hvalues row hrow).2 e he))
  | update s =>
    obtain ⟨hname, -, hassignments, hwhere⟩ := h
    apply Written.keyword
    apply Written.name hname
    apply Written.keyword
    apply Written.append _ (hfilter _ hwhere)
    apply written_comma
    intro assignment hassignment
    obtain ⟨hcolumn, hvalue⟩ := hassignments assignment hassignment
    exact ((written_operand hvalue).symbol (by decide)).name hcolumn
  | delete s =>
    obtain ⟨hname, hwhere⟩ := h
    apply Written.keyword
    apply Written.keyword
    exact (hfilter _ hwhere).name hname

end SpaceDB.Proofs
