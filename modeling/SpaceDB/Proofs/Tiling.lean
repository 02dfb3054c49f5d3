import SpaceDB.Proofs.LexedTokens
import SpaceDB.Proofs.Ordinary

namespace SpaceDB.Proofs
open Lib Storage Sql

inductive TextClass where
  | word | integer | decimal | quoted | symbol

def TextClass.Matches : TextClass → Bytes → Prop
  | .word, text => ∃ b rest, text = b :: rest ∧ isIdentifierStart b = true ∧
      ∀ c ∈ rest, isIdentifierPart c = true
  | .integer, text => text ≠ [] ∧ ∀ c ∈ text, isDigit c = true
  | .decimal, text => ∃ whole fraction, text = whole ++ 46 :: fraction ∧
      (whole ≠ [] ∧ ∀ c ∈ whole, isDigit c = true) ∧ fraction ≠ [] ∧ ∀ c ∈ fraction,
      isDigit c = true
  | .quoted, text => ∃ s, text = 39 :: s ++ [39] ∧ 39 ∉ s
  | .symbol, text => ∃ b kind, text = [b] ∧ Lexer.symbolKind b = some kind

inductive Means : TextClass → Bytes → Token → Prop where
  | keyword {text : Bytes} {keyword : Keyword} {offset : Nat}
    (h : keyword.text = text.map toUpper) :
      Means .word text ⟨.keywordKind, some keyword, .nil, offset⟩
  | identifier {text : Bytes} {offset : Nat}
    (h : ∀ keyword : Keyword, keyword.text ≠ text.map toUpper) :
      Means .word text ⟨.identifier, none, .string (text.map toLower), offset⟩
  | integer {text : Bytes} {i : Sql.Int64} {offset : Nat} (h : i.val = decimal text) :
      Means .integer text ⟨.number, none, .int64 i, offset⟩
  | decimal {text : Bytes} {f : Float64} {offset : Nat} (h : parseFloat text = some f) :
      Means .decimal text ⟨.number, none, .float64 f, offset⟩
  | quoted {s : Bytes} {offset : Nat} :
      Means .quoted (39 :: s ++ [39]) ⟨.string, none, .string s, offset⟩
  | symbol {b : Byte} {kind : Kind} {offset : Nat} (h : Lexer.symbolKind b = some kind) :
      Means .symbol [b] ⟨kind, none, .nil, offset⟩

/-- With more of what follows, the text is not of the class any more. -/
def Longest (c : TextClass) (text rest : Bytes) : Prop :=
  ∀ more, more ≠ [] → more <+: rest → ¬ c.Matches (text ++ more)

def Blank (gap : Bytes) : Prop := ∀ b ∈ gap, b ∈ ([9, 10, 11, 12, 13, 32] : Bytes)

structure Tile where
  text : Bytes
  gap : Bytes
  token : Token

def cover (tiles : List Tile) : Bytes := tiles.flatMap fun t => t.text ++ t.gap

/-- Each tile from the offset on is a token there, and the longest one of its
class. -/
def Laid : Nat → List Tile → Prop
  | _, [] => True
  | offset, tile :: tiles =>
    (∃ c : TextClass, c.Matches tile.text ∧ Longest c tile.text (tile.gap ++ cover tiles) ∧
      Means c tile.text tile.token) ∧
    tile.token.offset = offset ∧ Blank tile.gap ∧
    Laid (offset + tile.text.length + tile.gap.length) tiles

/-- The input is whitespace and tiles, whose tokens these are up to the end of
the input. -/
def Tiled (input : Bytes) (tokens : List Token) : Prop :=
  ∃ gap tiles, input = gap ++ cover tiles ∧ Blank gap ∧ Laid gap.length tiles ∧
    tokens = tiles.map Tile.token ++ [⟨.endOfInput, none, .nil, input.length⟩]

section Bytes
variable {b : Byte} {text rest more : Bytes} {p : Byte → Bool}

theorem isSpace_iff : isSpace b = true ↔ b ∈ ([9, 10, 11, 12, 13, 32] : Bytes) := by
  revert b
  decide +kernel

theorem Blank.isSpace (h : Blank text) : ∀ b ∈ text, isSpace b = true := fun b hb =>
  isSpace_iff.mpr (h b hb)

theorem symbolKind_class {kind : Kind} (h : Lexer.symbolKind b = some kind) :
    isSpace b = false ∧ b ≠ 46 ∧ b ≠ 39 ∧ isDigit b = false ∧ isIdentifierStart b = false ∧
      kind ≠ .endOfInput := by
  have hall : ∀ b : Byte, ∀ kind ∈ Lexer.symbolKind b, isSpace b = false ∧ b ≠ 46 ∧ b ≠ 39 ∧
      isDigit b = false ∧ isIdentifierStart b = false ∧ kind ≠ .endOfInput := by
    decide +kernel
  exact hall b kind h

theorem start_class (h : isIdentifierStart b = true) :
    isSpace b = false ∧ b ≠ 46 ∧ b ≠ 39 ∧ isDigit b = false := by
  revert b
  decide +kernel

theorem digit_start (h : isDigit b = true) : isSpace b = false ∧ b ≠ 46 ∧ b ≠ 39 := by
  revert b
  decide +kernel

/-- A run of bytes ends where the first other byte comes. -/
theorem takeWhile_run (htext : ∀ c ∈ text, p c = true) (hrest : ∀ c ∈ rest.head?, p c = false) :
    (text ++ rest).takeWhile p = text := by
  rw [List.takeWhile_append_of_pos htext]
  cases rest with
  | nil => simp
  | cons c rest => simp [hrest c rfl]

/-- A literal goes up to the next quote. -/
theorem takeWhile_quote {s : Bytes} (hfree : 39 ∉ s) (rest : Bytes) :
    (s ++ 39 :: rest).takeWhile (fun b => decide (b ≠ 39)) = s := by
  refine takeWhile_run ?_ (by simp)
  intro b hb
  exact decide_eq_true (fun hquote => hfree (hquote ▸ hb))

theorem takeWhile_split (p : Byte → Bool) (l : Bytes) :
    l = l.takeWhile p ++ l.drop (l.takeWhile p).length ∧
      ∀ c ∈ (l.drop (l.takeWhile p).length).head?, p c = false := by
  induction l with
  | nil => simp
  | cons a l ih =>
    by_cases ha : p a = true
    · simpa [List.takeWhile_cons, ha] using ih
    · simp [ha]

end Bytes

section Classes
variable {c : TextClass} {text rest : Bytes} {t : Token}

/-- A text begins with a byte that is neither whitespace nor a point. -/
theorem TextClass.Matches.head (h : c.Matches text) :
    ∃ b tail, text = b :: tail ∧ isSpace b = false ∧ b ≠ 46 := by
  cases c with
  | word =>
    obtain ⟨b, tail, rfl, hb, -⟩ := h
    exact ⟨b, tail, rfl, (start_class hb).1, (start_class hb).2.1⟩
  | integer =>
    obtain ⟨hne, hdigits⟩ := h
    obtain ⟨b, tail, rfl⟩ := List.exists_cons_of_ne_nil hne
    have hb := digit_start (hdigits b List.mem_cons_self)
    exact ⟨b, tail, rfl, hb.1, hb.2.1⟩
  | decimal =>
    obtain ⟨whole, fraction, rfl, ⟨hne, hdigits⟩, -⟩ := h
    obtain ⟨b, tail, rfl⟩ := List.exists_cons_of_ne_nil hne
    have hb := digit_start (hdigits b List.mem_cons_self)
    exact ⟨b, _, rfl, hb.1, hb.2.1⟩
  | quoted =>
    obtain ⟨s, rfl, -⟩ := h
    exact ⟨39, _, rfl, by decide, by decide⟩
  | symbol =>
    obtain ⟨b, kind, rfl, hkind⟩ := h
    have hb := symbolKind_class hkind
    exact ⟨b, [], rfl, hb.1, hb.2.1⟩

/-- Where every text of the class is made of the bytes `p`, a text cannot go on
before another byte. -/
theorem longest_of_run {p : Byte → Bool} (hclass : ∀ text, c.Matches text → ∀ b ∈ text, p b = true)
    (hrest : ∀ b ∈ rest.head?, p b = false) : Longest c text rest := by
  intro more hne hmore hmatch
  obtain ⟨b, tail, rfl⟩ := List.exists_cons_of_ne_nil hne
  obtain ⟨after, rfl⟩ := hmore
  have hb := hrest b rfl
  rw [hclass _ hmatch b (by simp)] at hb
  cases hb

theorem word_parts (h : TextClass.word.Matches text) : ∀ b ∈ text, isIdentifierPart b = true := by
  obtain ⟨b, rest, rfl, hb, hrest⟩ := h
  exact List.forall_mem_cons.mpr ⟨by simp [isIdentifierPart, hb], hrest⟩

/-- The point of a decimal text is its first byte that is no digit. -/
theorem decimal_parts {whole fraction whole' fraction' : Bytes}
    (hwhole : ∀ b ∈ whole, isDigit b = true) (hwhole' : ∀ b ∈ whole', isDigit b = true)
    (h : whole ++ 46 :: fraction = whole' ++ 46 :: fraction') : fraction = fraction' := by
  have hpoint : ∀ c ∈ (46 :: fraction : Bytes).head?, isDigit c = false := by simp; decide
  have hpoint' : ∀ c ∈ (46 :: fraction' : Bytes).head?, isDigit c = false := by simp; decide
  have hsame : whole = whole' := by
    rw [← takeWhile_run hwhole hpoint, h, takeWhile_run hwhole' hpoint']
  rw [hsame] at h
  exact (List.cons.inj (List.append_cancel_left h)).2

theorem longest_decimal {whole fraction : Bytes} (hwhole : ∀ b ∈ whole, isDigit b = true)
    (hrest : ∀ b ∈ rest.head?, isDigit b = false) :
    Longest .decimal (whole ++ 46 :: fraction) rest := by
  rintro more hne hmore ⟨whole', fraction', htext, ⟨-, hwhole'⟩, -, hfraction'⟩
  obtain ⟨b, tail, rfl⟩ := List.exists_cons_of_ne_nil hne
  obtain ⟨after, rfl⟩ := hmore
  rw [List.append_assoc, List.cons_append] at htext
  have hparts := decimal_parts hwhole hwhole' htext
  have hb := hrest b rfl
  rw [hfraction' b (by simp [← hparts])] at hb
  cases hb

theorem longest_quoted (s rest : Bytes) : Longest .quoted (39 :: s ++ [39]) rest := by
  rintro more hne - ⟨s', htext, hfree⟩
  obtain ⟨init, last, rfl⟩ := List.eq_nil_or_concat' more |>.resolve_left hne
  rw [← List.append_assoc] at htext
  have hinit := (List.append_inj' htext rfl).1
  simp only [List.cons_append, List.append_assoc, List.nil_append, List.cons.injEq,
    true_and] at hinit
  exact hfree (by simp [← hinit])

theorem longest_symbol (b : Byte) (rest : Bytes) : Longest .symbol [b] rest := by
  rintro more hne - ⟨b', kind, htext, -⟩
  cases more with
  | nil => exact hne rfl
  | cons c more => simp at htext

end Classes

/-- Keywords are recognised in any case of their letters. -/
theorem keywordFromIdentifier_some {text : Bytes} {k : Keyword} :
    keywordFromIdentifier text = some k ↔ k.text = text.map toUpper := by
  have hdistinct : ∀ k ∈ Keyword.all, ∀ k' ∈ Keyword.all, k.text = k'.text → k = k' := by
    decide +kernel
  unfold keywordFromIdentifier
  constructor
  · intro h
    simpa using List.find?_some h
  · intro h
    cases hfind : Keyword.all.find? (fun keyword => decide (keyword.text = text.map toUpper)) with
    | none =>
      have hnot := List.find?_eq_none.mp hfind k (keyword_mem_all k)
      simp [h] at hnot
    | some k' =>
      have hk' : k'.text = text.map toUpper := by simpa using List.find?_some hfind
      rw [hdistinct k' (keyword_mem_all k') k (keyword_mem_all k) (hk'.trans h.symm)]

theorem keywordFromIdentifier_none {text : Bytes} :
    keywordFromIdentifier text = none ↔ ∀ k : Keyword, k.text ≠ text.map toUpper := by
  rw [← not_iff_not, ← ne_eq, Option.ne_none_iff_exists']
  simp [keywordFromIdentifier_some]

theorem parseInt_some {text : Bytes} {i : Sql.Int64} :
    parseInt text = some i ↔ i.val = decimal text := by
  have hi := i.property
  unfold parseInt
  split_ifs with hlt
  · rw [Option.some.injEq, Subtype.ext_iff, eq_comm]
  · simp only [false_iff]
    omega

structure Takes (l : Lexer) (token : Token) (l' : Lexer) (c : TextClass) (text : Bytes) : Prop where
  split : l.rest = text ++ l'.rest
  moved : l'.offset = l.offset + text.length
  fits : c.Matches text
  longest : Longest c text l'.rest
  means : Means c text token
  start : token.offset = l.offset

section Scanners
variable {l l' : Lexer} {b : Byte} {rest : Bytes} {t : Token}

theorem scanIdentifier_takes (hl : l.rest = b :: rest) (hb : isIdentifierStart b = true) :
    Takes l l.scanIdentifier.1 l.scanIdentifier.2 .word (l.rest.takeWhile isIdentifierPart) := by
  obtain ⟨hsplit, hstop⟩ := takeWhile_split isIdentifierPart l.rest
  refine ⟨hsplit, rfl, ?_, longest_of_run (fun _ => word_parts) hstop, ?_, ?_⟩
  · have htext : l.rest.takeWhile isIdentifierPart = b :: rest.takeWhile isIdentifierPart := by
      rw [hl, List.takeWhile_cons_of_pos (by simp [isIdentifierPart, hb])]
    exact ⟨b, _, htext, hb, fun c hc => List.mem_takeWhile_imp hc⟩
  · unfold Lexer.scanIdentifier
    cases hkeyword : keywordFromIdentifier (l.rest.takeWhile isIdentifierPart) with
    | some k => simpa [hkeyword] using Means.keyword (keywordFromIdentifier_some.mp hkeyword)
    | none => simpa [hkeyword] using Means.identifier (keywordFromIdentifier_none.mp hkeyword)
  · unfold Lexer.scanIdentifier
    cases hkeyword : keywordFromIdentifier (l.rest.takeWhile isIdentifierPart) <;> simp [hkeyword]

/-- The lexer takes the digits of a number, and a fraction if one follows. -/
theorem scanNumber_takes (hl : l.rest = b :: rest) (hb : isDigit b = true)
    (h : l.scanNumber = .ok (t, l')) : ∃ c text, Takes l t l' c text := by
  obtain ⟨hsplit, hstop⟩ := takeWhile_split isDigit l.rest
  have hwhole : ∀ c ∈ l.rest.takeWhile isDigit, isDigit c = true := fun c hc =>
    List.mem_takeWhile_imp hc
  have hne : l.rest.takeWhile isDigit ≠ [] := by
    rw [hl, List.takeWhile_cons_of_pos hb]
    simp
  unfold Lexer.scanNumber at h
  simp only at h
  split at h
  next after hafter =>
    obtain ⟨hsplit', hstop'⟩ := takeWhile_split isDigit after
    split_ifs at h with hempty
    · cases h
    · split at h
      · cases h
      next f hf =>
        cases h
        have htext : l.rest = (l.rest.takeWhile isDigit ++ 46 :: after.takeWhile isDigit) ++
            after.drop (after.takeWhile isDigit).length := by
          rw [List.append_assoc, List.cons_append, ← hsplit', ← hafter]
          exact hsplit
        have hdrop : l.rest.drop
            (l.rest.takeWhile isDigit ++ 46 :: after.takeWhile isDigit).length =
            after.drop (after.takeWhile isDigit).length := by
          conv_lhs => arg 2; rw [htext]
          exact List.drop_left
        refine ⟨.decimal, _, ?_, rfl, ?_, ?_, .decimal hf, rfl⟩
        · rw [Lexer.skip, hdrop]
          exact htext
        · exact ⟨_, _, rfl, ⟨hne, hwhole⟩, hempty, fun c hc => List.mem_takeWhile_imp hc⟩
        · rw [Lexer.skip, hdrop]
          exact longest_decimal hwhole hstop'
  · split at h
    · cases h
    next i hi =>
      cases h
      exact ⟨.integer, _, hsplit, rfl, ⟨hne, hwhole⟩, longest_of_run (fun _ h => h.2) hstop,
        .integer (parseInt_some.mp hi), rfl⟩

theorem scanString_takes (hl : l.rest = 39 :: rest) (h : l.scanString = .ok (t, l')) :
    ∃ text, Takes l t l' .quoted text := by
  obtain ⟨hsplit, hstop⟩ := takeWhile_split (fun b => decide (b ≠ 39)) rest
  unfold Lexer.scanString at h
  simp only [hl, List.drop_one, List.tail_cons] at h
  split_ifs at h with hlen
  · cases h
  · cases h
    obtain ⟨q, after, hafter⟩ := List.exists_cons_of_ne_nil
      (show rest.drop (rest.takeWhile (fun b => decide (b ≠ 39))).length ≠ [] by simpa using hlen)
    have hq : q = 39 := by
      have hnot := hstop q (by rw [hafter]; rfl)
      simpa using hnot
    rw [hafter, hq] at hsplit
    have htext : l.rest = (39 :: rest.takeWhile (fun b => decide (b ≠ 39)) ++ [39]) ++ after := by
      rw [hl, List.append_assoc, List.cons_append, List.singleton_append, ← hsplit]
    have hdrop : l.rest.drop ((rest.takeWhile (fun b => decide (b ≠ 39))).length + 2) = after := by
      rw [htext]
      exact List.drop_left' (by simp)
    refine ⟨_, ?_, ?_, ⟨_, rfl, ?_⟩, longest_quoted _ _, .quoted, rfl⟩
    · rw [Lexer.skip, hdrop]
      exact htext
    · simp [Lexer.skip]
    · intro hmem
      have := List.mem_takeWhile_imp hmem
      simp at this

theorem scanSymbol_takes (hl : l.rest = b :: rest) (h : l.scanSymbol b = .ok (t, l')) :
    Takes l t l' .symbol [b] := by
  unfold Lexer.scanSymbol at h
  split at h
  next kind hkind =>
    cases h
    exact ⟨by simp [Lexer.skip, hl], rfl, ⟨b, kind, rfl, hkind⟩, longest_symbol b _,
      .symbol hkind, rfl⟩
  · cases h

/-- One token, with its text. -/
theorem scan_takes (hl : l.rest = b :: rest) (h : l.scan = .ok (t, l')) :
    ∃ c text, Takes l t l' c text := by
  unfold Lexer.scan at h
  rw [hl] at h
  simp only at h
  split_ifs at h with hquote hdigit hstart
  · obtain ⟨text, htakes⟩ := scanString_takes (hquote ▸ hl) h
    exact ⟨_, text, htakes⟩
  · exact scanNumber_takes hl hdigit h
  · cases h
    exact ⟨_, _, scanIdentifier_takes hl hstart⟩
  · exact ⟨_, _, scanSymbol_takes hl h⟩

end Scanners

section Texts
variable {c : TextClass} {text gap rest : Bytes} {t : Token} {offset : Nat}

/-- The longest text ends before the first byte that does not continue it. -/
theorem Longest.stop {p : Byte → Bool} (h : Longest c text rest)
    (hmore : ∀ b, p b = true → c.Matches (text ++ [b])) : ∀ b ∈ rest.head?, p b = false := by
  intro b hb
  rw [← Bool.not_eq_true]
  intro hp
  obtain ⟨after, rfl⟩ := List.head?_eq_some_iff.mp hb
  exact h [b] (by simp) ⟨after, rfl⟩ (hmore b hp)

theorem scan_word (hfits : TextClass.word.Matches text) (hlongest : Longest .word text rest)
    (hmeans : Means .word text t) :
    Lexer.scan ⟨text ++ rest, t.offset⟩ = .ok (t, ⟨rest, t.offset + text.length⟩) := by
  have hparts := word_parts hfits
  have hstop : ∀ b ∈ rest.head?, isIdentifierPart b = false := by
    refine hlongest.stop (fun d hd => ?_)
    obtain ⟨b, tail, rfl, hb, htail⟩ := hfits
    refine ⟨b, tail ++ [d], rfl, hb, ?_⟩
    exact List.forall_mem_append.mpr ⟨htail, by simpa using hd⟩
  have htake := takeWhile_run hparts hstop
  obtain ⟨b, tail, rfl, hb, -⟩ := hfits
  obtain ⟨-, -, hquote, hdigit⟩ := start_class hb
  unfold Lexer.scan
  simp only [List.cons_append, if_neg hquote, hdigit, hb, if_true, Bool.false_eq_true, if_false]
  unfold Lexer.scanIdentifier
  simp only [← List.cons_append, htake, skip_append]
  cases hmeans with
  | keyword h => simp [keywordFromIdentifier_some.mpr h]
  | identifier h => simp [keywordFromIdentifier_none.mpr h]

theorem scan_number (hne : text ≠ []) (hdigits : ∀ b ∈ text, isDigit b = true) (rest : Bytes)
    (offset : Nat) : Lexer.scan ⟨text ++ rest, offset⟩ =
    Lexer.scanNumber ⟨text ++ rest, offset⟩ := by
  obtain ⟨b, tail, rfl⟩ := List.exists_cons_of_ne_nil hne
  have hb := hdigits b List.mem_cons_self
  unfold Lexer.scan
  simp only [List.cons_append, if_neg (digit_start hb).2.2, hb, if_true]

/-- A number is taken for an integer where no point follows it. -/
theorem scan_integer (hfits : TextClass.integer.Matches text)
    (hlongest : Longest .integer text rest)
    (hmeans : Means .integer text t) (hpoint : ∀ b ∈ rest.head?, b ≠ 46) :
    Lexer.scan ⟨text ++ rest, t.offset⟩ = .ok (t, ⟨rest, t.offset + text.length⟩) := by
  obtain ⟨hne, hdigits⟩ := hfits
  have hstop : ∀ b ∈ rest.head?, isDigit b = false := by
    refine hlongest.stop (fun d hd => ⟨by simp, ?_⟩)
    exact List.forall_mem_append.mpr ⟨hdigits, by simpa using hd⟩
  rw [scan_number hne hdigits]
  unfold Lexer.scanNumber
  simp only [takeWhile_run hdigits hstop, List.drop_left, skip_append]
  split
  next after => exact absurd rfl (hpoint 46 rfl)
  · cases hmeans with
    | integer h => simp [parseInt_some.mpr h]

theorem scan_decimal (hfits : TextClass.decimal.Matches text)
    (hlongest : Longest .decimal text rest)
    (hmeans : Means .decimal text t) :
    Lexer.scan ⟨text ++ rest, t.offset⟩ = .ok (t, ⟨rest, t.offset + text.length⟩) := by
  obtain ⟨whole, fraction, rfl, hwhole, hne, hdigits⟩ := hfits
  have hstop : ∀ b ∈ rest.head?, isDigit b = false := by
    refine hlongest.stop (fun d hd => ⟨whole, fraction ++ [d], by simp, hwhole, by simp, ?_⟩)
    exact List.forall_mem_append.mpr ⟨hdigits, by simpa using hd⟩
  have hpoint : ∀ c ∈ (46 :: (fraction ++ rest) : Bytes).head?, isDigit c = false := by simp; decide
  have htext : whole ++ 46 :: fraction ++ rest = whole ++ 46 :: (fraction ++ rest) := by simp
  cases hmeans with
  | decimal h =>
    rw [htext, scan_number hwhole.1 hwhole.2]
    unfold Lexer.scanNumber
    simp only [takeWhile_run hwhole.2 hpoint, List.drop_left, takeWhile_run hdigits hstop,
      if_neg hne, h]
    rw [← htext, skip_append]

theorem scan_quoted (hfits : TextClass.quoted.Matches text) (hmeans : Means .quoted text t) :
    Lexer.scan ⟨text ++ rest, t.offset⟩ = .ok (t, ⟨rest, t.offset + text.length⟩) := by
  cases hmeans with
  | @quoted s offset =>
    obtain ⟨s', htext, hfree⟩ := hfits
    obtain rfl : s = s' := by simpa using htext
    unfold Lexer.scan Lexer.scanString
    simp only [List.cons_append, List.append_assoc, List.nil_append, if_pos, List.drop_one,
      List.tail_cons, takeWhile_quote hfree]
    rw [if_neg (by simp)]
    simp [Lexer.skip]

theorem scan_symbol (hmeans : Means .symbol text t) :
    Lexer.scan ⟨text ++ rest, t.offset⟩ = .ok (t, ⟨rest, t.offset + text.length⟩) := by
  cases hmeans with
  | symbol h =>
    obtain ⟨-, -, hquote, hdigit, hstart, -⟩ := symbolKind_class h
    simp [Lexer.scan, Lexer.scanSymbol, hquote, hdigit, hstart, h, Lexer.skip]

/-- A text of a class is scanned as its token when no longer one is there. -/
theorem scan_text (hfits : c.Matches text) (hlongest : Longest c text rest)
    (hmeans : Means c text t)
    (hpoint : ∀ b ∈ rest.head?, b ≠ 46) :
    Lexer.scan ⟨text ++ rest, t.offset⟩ = .ok (t, ⟨rest, t.offset + text.length⟩) := by
  cases c with
  | word => exact scan_word hfits hlongest hmeans
  | integer => exact scan_integer hfits hlongest hmeans hpoint
  | decimal => exact scan_decimal hfits hlongest hmeans
  | quoted => exact scan_quoted hfits hmeans
  | symbol => exact scan_symbol hmeans

theorem skipWhitespace_gap (hgap : Blank gap) (hrest : ∀ b ∈ rest.head?, isSpace b = false) :
    Lexer.skipWhitespace ⟨gap ++ rest, offset⟩ = ⟨rest, offset + gap.length⟩ := by
  unfold Lexer.skipWhitespace
  rw [takeWhile_run hgap.isSpace hrest, skip_append]

theorem Means.kind (h : Means c text t) : t.kind ≠ .endOfInput := by
  cases h with
  | symbol h => exact (symbolKind_class h).2.2.2.2.2
  | _ => simp

end Texts

section Tiles
variable {l l' : Lexer} {tiles : List Tile} {gap : Bytes} {offset fuel : Nat} {tokens : List Token}

theorem cover_cons (tile : Tile) (tiles : List Tile) :
    cover (tile :: tiles) = tile.text ++ (tile.gap ++ cover tiles) := by
  simp [cover]

theorem Laid.head (h : Laid offset tiles) :
    ∀ b ∈ (cover tiles).head?, isSpace b = false ∧ b ≠ 46 := by
  cases tiles with
  | nil => simp [cover]
  | cons tile tiles =>
    obtain ⟨⟨c, hfits, -⟩, -⟩ := h
    obtain ⟨b, tail, htext, hb⟩ := hfits.head
    simpa [cover_cons, htext] using hb

/-- What follows a token never begins with a point. -/
theorem Laid.no_point (hgap : Blank gap) (h : Laid offset tiles) :
    ∀ b ∈ (gap ++ cover tiles).head?, b ≠ 46 := by
  cases gap with
  | nil => exact fun b hb => (h.head b hb).2
  | cons d gap =>
    intro b hb hpoint
    obtain rfl : d = b := by simpa using hb
    have hd := hgap d List.mem_cons_self
    rw [hpoint] at hd
    revert hd
    decide

theorem next_gap (hgap : Blank gap) (h : Laid (offset + gap.length) tiles) :
    Lexer.next ⟨gap ++ cover tiles, offset⟩ = Lexer.scan ⟨cover tiles, offset + gap.length⟩ := by
  unfold Lexer.next
  rw [skipWhitespace_gap hgap (fun b hb => (h.head b hb).1)]

/-- Tiles are read back one by one. -/
theorem tokenizeAll_laid (hgap : Blank gap) (h : Laid (offset + gap.length) tiles)
    (hfuel : tiles.length < fuel) :
    Lexer.tokenizeAll fuel ⟨gap ++ cover tiles, offset⟩ = .ok (tiles.map Tile.token ++
      [⟨.endOfInput, none, .nil, offset + (gap ++ cover tiles).length⟩]) := by
  induction tiles generalizing gap offset fuel with
  | nil =>
    obtain ⟨fuel, rfl⟩ := Nat.exists_eq_succ_of_ne_zero (Nat.ne_of_gt hfuel)
    unfold Lexer.tokenizeAll
    rw [next_gap hgap h]
    simp [cover, Lexer.scan]
  | cons tile tiles ih =>
    obtain ⟨fuel, rfl⟩ := Nat.exists_eq_succ_of_ne_zero (Nat.ne_of_gt (Nat.zero_lt_of_lt hfuel))
    have hnext := next_gap hgap h
    obtain ⟨⟨c, hfits, hlongest, hmeans⟩, hoffset, hgap', hrest⟩ := h
    have hscan := scan_text hfits hlongest hmeans (hrest.no_point hgap')
    rw [hoffset] at hscan
    unfold Lexer.tokenizeAll
    rw [hnext, cover_cons, hscan]
    simp only [if_neg hmeans.kind]
    rw [ih hgap' hrest (Nat.lt_of_succ_lt_succ hfuel)]
    simp [Except.map, Nat.add_assoc]

/-- Tokens come from tiles: each round of the loop lays one, and the end of the
input leaves the whitespace behind the last. -/
theorem tokenizeAll_tiles (h : Lexer.tokenizeAll fuel l = .ok tokens) :
    ∃ gap tiles, l.rest = gap ++ cover tiles ∧ Blank gap ∧ Laid (l.offset + gap.length) tiles ∧
      tokens = tiles.map Tile.token ++ [⟨.endOfInput, none, .nil, l.offset + l.rest.length⟩] := by
  induction fuel generalizing l tokens with
  | zero => cases h
  | succ fuel ih =>
    obtain ⟨hsplit, -⟩ := takeWhile_split isSpace l.rest
    have hgap : Blank (l.rest.takeWhile isSpace) := fun b hb =>
      isSpace_iff.mp (List.mem_takeWhile_imp hb)
    have hlength := congrArg List.length hsplit
    unfold Lexer.tokenizeAll Lexer.next at h
    cases hrest : l.skipWhitespace.rest with
    | nil =>
      have hdrop : l.rest.drop (l.rest.takeWhile isSpace).length = [] := hrest
      rw [hdrop, List.append_nil] at hsplit
      have hend : tokens = [⟨.endOfInput, none, .nil, l.skipWhitespace.offset⟩] := by
        simpa [Lexer.scan, hrest, eq_comm] using h
      refine ⟨_, [], by simpa [cover] using hsplit, hgap, trivial, ?_⟩
      rw [hend]
      simp [Lexer.skipWhitespace, Lexer.skip, ← hsplit]
    | cons b rest =>
      split at h
      · cases h
      next t l' ht =>
        obtain ⟨c, text, htakes⟩ := scan_takes hrest ht
        rw [if_neg htakes.means.kind] at h
        obtain ⟨tokens, hl', rfl⟩ := except_map_ok h
        obtain ⟨gap, tiles, hcover, hblank, hlaid, rfl⟩ := ih hl'
        have htext : l.rest = l.rest.takeWhile isSpace ++ cover (⟨text, gap, t⟩ :: tiles) := by
          rw [cover_cons, ← hcover, ← htakes.split]
          exact hsplit
        have hoffset : l'.offset = l.offset + (l.rest.takeWhile isSpace).length + text.length :=
          htakes.moved
        refine ⟨_, ⟨text, gap, t⟩ :: tiles, htext, hgap, ⟨⟨c, htakes.fits, ?_, htakes.means⟩,
          htakes.start, hblank, ?_⟩, ?_⟩
        · rw [← hcover]
          exact htakes.longest
        · rw [← hoffset]
          exact hlaid
        · have hend : l'.offset + l'.rest.length = l.offset + l.rest.length := by
            have hsum := congrArg List.length htakes.split
            simp only [List.length_append] at hsum hlength
            change (l.rest.drop _).length = _ at hsum
            omega
          simp [hend]

/-- The lexer does not panic. -/
theorem scan_ordinary (l : Lexer) : Ordinary (fun _ => True) l.scan := by
  have hstring : Ordinary (fun _ => True) l.scanString := by
    unfold Lexer.scanString
    simp only
    split_ifs <;> exact trivial
  have hnumber : Ordinary (fun _ => True) l.scanNumber := by
    unfold Lexer.scanNumber
    simp only
    split
    · split_ifs
      · exact trivial
      · split <;> exact trivial
    · split <;> exact trivial
  have hsymbol (b : Byte) : Ordinary (fun _ => True) (l.scanSymbol b) := by
    unfold Lexer.scanSymbol
    split <;> exact trivial
  unfold Lexer.scan
  split
  · exact trivial
  next b rest hl =>
    split_ifs
    · exact hstring
    · exact hnumber
    · exact trivial
    · exact hsymbol b

/-- Each round takes a byte at least, so that the loop does not run out of fuel. -/
theorem tokenizeAll_ordinary (hfuel : l.rest.length < fuel) :
    Ordinary (fun _ => True) (Lexer.tokenizeAll fuel l) := by
  induction fuel generalizing l with
  | zero => cases hfuel
  | succ fuel ih =>
    have hscan := scan_ordinary l.skipWhitespace
    unfold Lexer.tokenizeAll Lexer.next
    split
    next e he =>
      rw [he] at hscan
      cases e <;> exact hscan
    next t l' ht =>
      split_ifs with hend
      · exact trivial
      · refine (ih ?_).map (fun _ _ => trivial)
        cases hrest : l.skipWhitespace.rest with
        | nil =>
          simp only [Lexer.scan, hrest] at ht
          cases ht
          exact absurd rfl hend
        | cons b rest =>
          obtain ⟨c, text, htakes⟩ := scan_takes hrest ht
          obtain ⟨d, tail, rfl, -⟩ := htakes.fits.head
          have hsum := congrArg List.length htakes.split
          have hskip : l.skipWhitespace.rest.length ≤ l.rest.length := by
            simp [Lexer.skipWhitespace, Lexer.skip]
          simp only [List.length_append, List.length_cons] at hsum
          omega

theorem length_le_cover {tiles : List Tile} (h : Laid offset tiles) :
    tiles.length ≤ (cover tiles).length := by
  induction tiles generalizing offset with
  | nil => exact Nat.zero_le _
  | cons tile tiles ih =>
    obtain ⟨⟨c, hfits, -⟩, -, -, hrest⟩ := h
    obtain ⟨b, tail, htext, -⟩ := hfits.head
    have hle := ih hrest
    simp only [cover_cons, htext, List.length_cons, List.length_append]
    omega

end Tiles

/-- The lexer makes the tokens that tile the input, and fails where none do. -/
theorem tokens_tile (input : Bytes) :
    (∀ tokens, lex input = .ok tokens ↔ Tiled input tokens) ∧
    ((∃ e, lex input = .error (.error e)) ↔ ¬ ∃ tokens, Tiled input tokens) := by
  have hiff : ∀ tokens, lex input = .ok tokens ↔ Tiled input tokens := by
    intro tokens
    constructor
    · intro h
      obtain ⟨gap, tiles, htext, hgap, hlaid, htokens⟩ := tokenizeAll_tiles h
      exact ⟨gap, tiles, htext, hgap, by simpa using hlaid, by simpa using htokens⟩
    · rintro ⟨gap, tiles, rfl, hgap, hlaid, rfl⟩
      have hlength := length_le_cover hlaid
      unfold lex
      rw [tokenizeAll_laid hgap (by simpa using hlaid) (by simp; omega), Nat.zero_add]
  refine ⟨hiff, ?_⟩
  have hordinary : Ordinary (fun _ => True) (lex input) := tokenizeAll_ordinary (Nat.lt_succ_self _)
  cases hlex : lex input with
  | ok tokens =>
    have htiled := (hiff tokens).mp hlex
    exact ⟨by simp, fun hnone => absurd ⟨tokens, htiled⟩ hnone⟩
  | error e =>
    cases e with
    | error e =>
      refine ⟨fun _ => ?_, fun _ => ⟨e, rfl⟩⟩
      rintro ⟨tokens, htiled⟩
      rw [(hiff tokens).mpr htiled] at hlex
      cases hlex
    | panic _ =>
      rw [hlex] at hordinary
      exact hordinary.elim

end SpaceDB.Proofs
