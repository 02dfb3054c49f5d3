import SpaceDB.Proofs.Tiling
import SpaceDB.Sql.Parser

namespace SpaceDB.Proofs
open Lib Storage Sql

/-- The texts differ in the case of letters only, and nowhere between two quotes.
A quote that none follows opens no literal. -/
inductive SameText : Bytes → Bytes → Prop where
  | nil : SameText [] []
  | outside {c d : Byte} {as bs : Bytes} (letter : toLower c = toLower d) (unquoted : c ≠ 39)
      (rest : SameText as bs) : SameText (c :: as) (d :: bs)
  | literal {s as bs : Bytes} (free : 39 ∉ s) (rest : SameText as bs) :
      SameText (39 :: (s ++ 39 :: as)) (39 :: (s ++ 39 :: bs))
  | unclosed {as bs : Bytes} (free : 39 ∉ as) (letters : as.map toLower = bs.map toLower) :
      SameText (39 :: as) (39 :: bs)

section Letters
variable {c d : Byte} {as bs : Bytes}

/-- The classes of bytes that the lexer asks for do not look at the case. -/
theorem classes_toLower (b : Byte) : isSpace (toLower b) = isSpace b ∧
    isDigit (toLower b) = isDigit b ∧
    isIdentifierStart (toLower b) = isIdentifierStart b ∧
    isIdentifierPart (toLower b) = isIdentifierPart b := by
  revert b
  decide +kernel

theorem toLower_of_not_start (h : isIdentifierStart c = false) : toLower c = c := by
  revert c
  decide +kernel

/-- Only letters have a case. -/
theorem eq_of_not_start (hcd : toLower c = toLower d)
    (hc : isIdentifierStart c = false) : c = d := by
  have hd : isIdentifierStart d = false := by
    rw [← (classes_toLower d).2.2.1, ← hcd, (classes_toLower c).2.2.1]
    exact hc
  rw [← toLower_of_not_start hc, hcd, toLower_of_not_start hd]

theorem quote_of_toLower (h : toLower c = toLower d) : c = 39 ↔ d = 39 := by
  constructor
  · rintro rfl
    exact (eq_of_not_start h (by decide)).symm
  · rintro rfl
    exact (eq_of_not_start h.symm (by decide)).symm

theorem quote_free (h : as.map toLower = bs.map toLower) (hfree : 39 ∉ as) : 39 ∉ bs := by
  have hquote : (39 : Byte) = toLower 39 := by decide
  intro hmem
  have hmap : (39 : Byte) ∈ as.map toLower := by
    rw [h, hquote]
    exact List.mem_map_of_mem hmem
  obtain ⟨c, hc, hlower⟩ := List.mem_map.mp hmap
  exact hfree ((quote_of_toLower (hlower.trans hquote)).mpr rfl ▸ hc)

theorem digits_eq (has : ∀ b ∈ as, isDigit b = true) (hbs : ∀ b ∈ bs, isDigit b = true)
    (h : as.map toLower = bs.map toLower) : as = bs := by
  have hsame : ∀ {l : Bytes}, (∀ b ∈ l, isDigit b = true) → l.map toLower = l := by
    intro l hl
    have hid : ∀ b ∈ l, toLower b = id b := by
      intro b hb
      apply toLower_of_not_start
      have hdigit := hl b hb
      revert hdigit
      clear hb
      revert b
      decide +kernel
    rw [List.map_congr_left hid, List.map_id]
  rw [← hsame has, h, hsame hbs]

/-- Keywords are looked up by their upper-case text. -/
theorem keywordFromIdentifier_toLower (h : as.map toLower = bs.map toLower) :
    keywordFromIdentifier as = keywordFromIdentifier bs := by
  have hupper (l : Bytes) : (l.map toLower).map toUpper = l.map toUpper := by
    rw [List.map_map]
    exact List.map_congr_left (fun b _ => toUpper_toLower b)
  unfold keywordFromIdentifier
  rw [← hupper as, h, hupper bs]

end Letters

/-- A run of bytes of a class ends at the same place in both texts, and the same
text is left behind it. -/
theorem SameText.run {as bs : Bytes} {p : Byte → Bool} (h : SameText as bs)
    (hp : ∀ b, p (toLower b) = p b) (hquote : p 39 = false) :
    (as.takeWhile p).map toLower = (bs.takeWhile p).map toLower ∧
      SameText (as.drop (as.takeWhile p).length) (bs.drop (bs.takeWhile p).length) := by
  induction h with
  | nil => exact ⟨rfl, .nil⟩
  | @outside c d as bs letter unquoted rest ih =>
    have hd : p d = p c := by rw [← hp d, ← letter, hp c]
    cases hc : p c with
    | true =>
      rw [hc] at hd
      simpa [List.takeWhile_cons, hc, hd, letter] using ih
    | false =>
      rw [hc] at hd
      simpa [List.takeWhile_cons, hc, hd] using SameText.outside letter unquoted rest
  | literal free rest => simpa [List.takeWhile_cons, hquote] using SameText.literal free rest
  | unclosed free letters =>
    simpa [List.takeWhile_cons, hquote] using SameText.unclosed free letters

structure Aligned (l l' : Lexer) : Prop where
  offset : l.offset = l'.offset
  text : SameText l.rest l'.rest

/-- The scans fail alike, or they make the same token and stay aligned. -/
inductive SameScan : Outcome (Token × Lexer) → Outcome (Token × Lexer) → Prop where
  | error (e : Fault) : SameScan (.error e) (.error e)
  | ok {l l' : Lexer} (token : Token) (h : Aligned l l') :
    SameScan (.ok (token, l)) (.ok (token, l'))

section Scans
variable {l l' : Lexer} {as bs : Bytes}

theorem Aligned.skip (h : Aligned l l') {n : Nat}
    (hrest : SameText (l.rest.drop n) (l'.rest.drop n)) :
    Aligned (l.skip n) (l'.skip n) := ⟨congrArg (· + n) h.offset, hrest⟩

theorem Aligned.skipWhitespace (h : Aligned l l') : Aligned l.skipWhitespace l'.skipWhitespace := by
  obtain ⟨hrun, hrest⟩ := h.text.run (fun b => (classes_toLower b).1) (by decide)
  have hlength := congrArg List.length hrun
  simp only [List.length_map] at hlength
  unfold Lexer.skipWhitespace
  rw [hlength] at hrest ⊢
  exact h.skip hrest

theorem scanIdentifier_same (h : Aligned l l') :
    SameScan (.ok l.scanIdentifier) (.ok l'.scanIdentifier) := by
  obtain ⟨hrun, hrest⟩ := h.text.run (fun b => (classes_toLower b).2.2.2) (by decide)
  have hlength := congrArg List.length hrun
  simp only [List.length_map] at hlength
  rw [hlength] at hrest
  unfold Lexer.scanIdentifier
  simp only [keywordFromIdentifier_toLower hrun, hrun, hlength, h.offset]
  exact .ok _ (h.skip hrest)

/-- What follows the digits is a point in both texts or in none. -/
theorem SameText.point (h : SameText (46 :: as) bs) : ∃ rest, bs = 46 :: rest ∧
    SameText as rest := by
  cases h with
  | outside letter _ rest =>
    rw [← eq_of_not_start letter (by decide)]
    exact ⟨_, rfl, rest⟩

theorem SameText.symm (h : SameText as bs) : SameText bs as := by
  induction h with
  | nil => exact .nil
  | outside letter unquoted _ ih =>
    exact .outside letter.symm (fun hd => unquoted ((quote_of_toLower letter).mpr hd)) ih
  | literal free _ ih => exact .literal free ih
  | unclosed free letters => exact .unclosed (quote_free letters free) letters.symm

theorem SameText.digits (h : SameText as bs) : as.takeWhile isDigit = bs.takeWhile isDigit ∧
    SameText (as.drop (as.takeWhile isDigit).length) (bs.drop (as.takeWhile isDigit).length) := by
  obtain ⟨hrun, hrest⟩ := h.run (fun b => (classes_toLower b).2.1) (by decide)
  have hsame := digits_eq (fun b hb => List.mem_takeWhile_imp hb)
    (fun b hb => List.mem_takeWhile_imp hb) hrun
  rw [← hsame] at hrest
  exact ⟨hsame, hrest⟩

/-- Digits and the decimal point have no case. -/
theorem scanNumber_same (h : Aligned l l') : SameScan l.scanNumber l'.scanNumber := by
  obtain ⟨hwhole, hrest⟩ := h.text.digits
  unfold Lexer.scanNumber
  simp only [← hwhole, ← h.offset]
  generalize hafter : l.rest.drop (l.rest.takeWhile isDigit).length = after at hrest ⊢
  generalize hafter' : l'.rest.drop (l.rest.takeWhile isDigit).length = after' at hrest ⊢
  split
  next rest =>
    obtain ⟨rest', rfl, hfollow⟩ := hrest.point
    obtain ⟨hfraction, hbehind⟩ := hfollow.digits
    simp only [← hfraction]
    split_ifs with hempty
    · exact .error _
    · split
      · exact .error _
      · refine .ok _ (h.skip ?_)
        have hdrop : ∀ {text rest : Bytes},
            text.drop (l.rest.takeWhile isDigit).length = 46 :: rest →
            ∀ n, text.drop ((l.rest.takeWhile isDigit).length + (n + 1)) = rest.drop n := by
          intro text rest htext n
          rw [← List.drop_drop, htext, List.drop_succ_cons]
        simp only [List.length_append, List.length_cons, hdrop hafter, hdrop hafter']
        exact hbehind
  next hpoint =>
    have hpoint' : ∀ rest, after' ≠ 46 :: rest := by
      rintro rest rfl
      obtain ⟨rest', hrest', -⟩ := hrest.symm.point
      exact hpoint rest' hrest'
    split
    · split
      next rest => exact absurd rfl (hpoint' rest)
      · exact .error _
    · split
      next rest => exact absurd rfl (hpoint' rest)
      · refine .ok _ (h.skip ?_)
        rw [hafter, hafter']
        exact hrest

/-- A string literal is the same in both texts. -/
theorem scanString_same (h : Aligned l l') {rest : Bytes} (hl : l.rest = 39 :: rest) :
    SameScan l.scanString l'.scanString := by
  have htext := h.text
  unfold Lexer.scanString
  rw [hl] at htext
  generalize hl' : l'.rest = text at htext
  rw [hl, ← h.offset]
  cases htext with
  | outside _ unquoted _ => exact absurd rfl unquoted
  | @literal s as bs free same =>
    have hdrop (after : Bytes) : (39 :: (s ++ 39 :: after)).drop (s.length + 2) = after := by simp
    simp only [List.drop_one, List.tail_cons, takeWhile_quote free]
    rw [if_neg (by simp), if_neg (by simp)]
    refine .ok _ (h.skip ?_)
    rw [hl, hl', hdrop, hdrop]
    exact same
  | @unclosed as bs free letters =>
    have hall {text : Bytes} (hfree : 39 ∉ text) :
        text.takeWhile (fun b => decide (b ≠ 39)) = text := by
      rw [List.takeWhile_eq_self_iff]
      intro b hb
      exact decide_eq_true (fun hquote => hfree (hquote ▸ hb))
    simp only [List.drop_one, List.tail_cons, hall free, hall (quote_free letters free),
      le_refl, if_true]
    exact .error _

/-- One token of each text. -/
theorem scan_same (h : Aligned l l') : SameScan l.scan l'.scan := by
  have htext := h.text
  cases hl : l.rest with
  | nil =>
    rw [hl] at htext
    generalize hl' : l'.rest = text at htext
    cases htext
    simp only [Lexer.scan, hl, hl', ← h.offset]
    exact .ok _ h
  | cons c rest =>
    by_cases hquote : c = 39
    · subst hquote
      have hscan := scanString_same h hl
      rw [hl] at htext
      generalize hl' : l'.rest = text at htext
      unfold Lexer.scan
      rw [hl, hl']
      cases htext with
      | outside _ unquoted _ => exact absurd rfl unquoted
      | literal | unclosed => exact hscan
    · rw [hl] at htext
      generalize hl' : l'.rest = text at htext
      cases htext with
      | literal | unclosed => exact absurd rfl hquote
      | @outside _ d _ bs letter _ _ =>
        have hd : d ≠ 39 := fun hd => hquote ((quote_of_toLower letter).mpr hd)
        obtain ⟨-, hdigit, hstart, -⟩ := classes_toLower d
        rw [← letter, (classes_toLower c).2.1] at hdigit
        rw [← letter, (classes_toLower c).2.2.1] at hstart
        unfold Lexer.scan
        simp only [hl, hl', if_neg hquote, if_neg hd, ← hdigit, ← hstart]
        split_ifs with _ hletter
        · exact scanNumber_same h
        · exact scanIdentifier_same h
        · obtain rfl : c = d := eq_of_not_start letter (by simpa using hletter)
          unfold Lexer.scanSymbol
          rw [← h.offset]
          split
          · refine .ok _ (h.skip ?_)
            rw [hl, hl']
            assumption
          · exact .error _

/-- Aligned lexers make the same tokens: the scans keep them aligned round after
round. -/
theorem tokenizeAll_same (fuel : Nat) (h : Aligned l l') :
    Lexer.tokenizeAll fuel l = Lexer.tokenizeAll fuel l' := by
  induction fuel generalizing l l' with
  | zero => rfl
  | succ fuel ih =>
    have hscan := scan_same h.skipWhitespace
    unfold Lexer.tokenizeAll Lexer.next
    generalize l.skipWhitespace.scan = r at hscan ⊢
    generalize l'.skipWhitespace.scan = r' at hscan ⊢
    cases hscan with
    | error e => rfl
    | ok token haligned =>
      dsimp only
      rw [ih haligned]

end Scans

theorem SameText.length_eq {a b : Bytes} (h : SameText a b) : a.length = b.length := by
  induction h with
  | nil => rfl
  | outside _ _ _ ih => simp [ih]
  | literal _ _ ih => simp [ih]
  | unclosed _ letters => simpa using congrArg List.length letters

theorem lex_same {a b : Bytes} (h : SameText a b) : lex a = lex b := by
  unfold lex
  rw [h.length_eq]
  exact tokenizeAll_same _ ⟨rfl, h⟩

/-- The case of letters outside of literals makes no difference: the statement is
the same, or the error. -/
theorem parse_ignores_case {a b : Bytes} (h : SameText a b) : parse a = parse b := by
  unfold parse
  rw [lex_same h]

theorem SameText.spell {x y a b : Bytes} (hfree : 39 ∉ x) (hxy : x.map toLower = y.map toLower)
    (h : SameText a b) : SameText (x ++ a) (y ++ b) := by
  induction x generalizing y with
  | nil =>
    obtain rfl : y = [] := by simpa using hxy.symm
    exact h
  | cons c x ih =>
    cases y with
    | nil => simp at hxy
    | cons d y =>
      simp only [List.map_cons, List.cons.injEq] at hxy
      simp only [List.mem_cons, not_or] at hfree
      exact .outside hxy.1 (Ne.symm hfree.1) (ih hfree.2 hxy.2)

theorem parse_ignores_case_literal :
    SameText (ascii "Delete from T where Name = 'Ab';") (ascii "DELETE FROM t WHERE nAME = 'Ab';") ∧
    parse (ascii "Delete from T where Name = 'Ab';") =
      parse (ascii "DELETE FROM t WHERE nAME = 'Ab';") := by
  have hsame : SameText (ascii "Delete from T where Name = 'Ab';")
      (ascii "DELETE FROM t WHERE nAME = 'Ab';") :=
    SameText.spell (x := ascii "Delete from T where Name = ")
      (y := ascii "DELETE FROM t WHERE nAME = ") (by decide +kernel) (by decide +kernel)
      (.literal (s := ascii "Ab") (by decide +kernel)
        (.outside (c := 59) (d := 59) rfl (by decide) .nil))
  exact ⟨hsame, parse_ignores_case hsame⟩

end SpaceDB.Proofs
