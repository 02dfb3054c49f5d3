import Mathlib.Data.List.TakeWhile
import SpaceDB.Proofs.KeyCodec
import SpaceDB.Proofs.WellFormed

namespace SpaceDB.Proofs
open Lib Storage Sql

/-- What the payload of a token is like, by its kind. -/
def Good (t : Token) : Prop :=
  match t.kind with
  | .identifier => ∃ s, t.value = .string s ∧ Identifier s
  | .string => ∃ s, t.value = .string s ∧ 39 ∉ s
  | .number => (∃ i : Sql.Int64, t.value = .int64 i ∧ 0 ≤ i.val) ∨
      ∃ f : Float64, t.value = .float64 f ∧ f.negative = false ∧ f.finite = true
  | _ => True

theorem skip_append (text rest : Bytes) (o : Nat) :
    Lexer.skip ⟨text ++ rest, o⟩ text.length = ⟨rest, o + text.length⟩ := by
  simp [Lexer.skip]

theorem keyword_mem_all (k : Keyword) : k ∈ Keyword.all := by
  cases k <;> decide

theorem toUpper_toLower (b : Byte) : toUpper (toLower b) = toUpper b := by
  revert b
  decide +kernel

theorem lowerStart_toLower {b : Byte} (h : isIdentifierStart b = true) :
    lowerStart (toLower b) := by
  unfold lowerStart
  revert b
  decide +kernel

theorem lowerPart_toLower {b : Byte} (h : isIdentifierPart b = true) : lowerPart (toLower b) := by
  unfold lowerPart lowerStart
  revert b
  decide +kernel

/-- A word that is no keyword becomes an identifier in lower case. -/
theorem identifier_toLower {b : Byte} {rest : Bytes} (hstart : isIdentifierStart b = true)
    (hrest : ∀ c ∈ rest, isIdentifierPart c = true)
    (hfree : keywordFromIdentifier (b :: rest) = none) : Identifier ((b :: rest).map toLower) := by
  refine ⟨⟨toLower b, rest.map toLower, rfl, lowerStart_toLower hstart, ?_⟩, ?_⟩
  · intro c hc
    obtain ⟨c', hc', rfl⟩ := List.mem_map.mp hc
    exact lowerPart_toLower (hrest c' hc')
  · have hupper : ((b :: rest).map toLower).map toUpper = (b :: rest).map toUpper := by
      rw [List.map_map]
      exact List.map_congr_left (fun c _ => toUpper_toLower c)
    unfold keywordFromIdentifier at hfree ⊢
    rw [hupper]
    exact hfree

theorem scanIdentifier_good {l : Lexer} {b : Byte} {rest : Bytes} (hl : l.rest = b :: rest)
    (hstart : isIdentifierStart b = true) : Good l.scanIdentifier.1 := by
  have htext : l.rest.takeWhile isIdentifierPart = b :: rest.takeWhile isIdentifierPart := by
    rw [hl, List.takeWhile_cons_of_pos (by simp [isIdentifierPart, hstart])]
  unfold Lexer.scanIdentifier
  simp only [htext]
  split
  · exact trivial
  next hfree =>
    refine ⟨_, rfl, identifier_toLower hstart ?_ hfree⟩
    intro c hc
    exact List.mem_takeWhile_imp hc

/-- A number in a text is not negative, and finite. -/
theorem parseFloat_good {text : Bytes} {f : Float64} (h : parseFloat text = some f) :
    f.negative = false ∧ f.finite = true := by
  unfold parseFloat at h
  simp only at h
  split_ifs at h with hlt
  cases h
  have hm := lt_trans hlt (by decide : Float64.infinite < 2 ^ 63)
  refine ⟨Float64.negative_ofMagnitude hm false, ?_⟩
  unfold Float64.finite
  rw [Float64.magnitude_ofMagnitude hm]
  exact decide_eq_true hlt

theorem scanNumber_good {l l' : Lexer} {t : Token} (h : l.scanNumber = .ok (t, l')) : Good t := by
  unfold Lexer.scanNumber at h
  simp only at h
  split at h
  · split_ifs at h with hempty
    · cases h
    · split at h
      · cases h
      next f hf =>
        cases h
        exact .inr ⟨f, rfl, parseFloat_good hf⟩
  · split at h
    · cases h
    next i hi =>
      cases h
      refine .inl ⟨i, rfl, ?_⟩
      unfold parseInt at hi
      split_ifs at hi
      cases hi
      exact Int.natCast_nonneg _

theorem scanString_good {l l' : Lexer} {t : Token} (h : l.scanString = .ok (t, l')) : Good t := by
  unfold Lexer.scanString at h
  simp only at h
  split_ifs at h
  · cases h
  · cases h
    refine ⟨_, rfl, ?_⟩
    intro hquote
    have hne := List.mem_takeWhile_imp hquote
    simp at hne

theorem symbolKind_good (b : Byte) : ∀ kind ∈ Lexer.symbolKind b,
    kind ≠ .identifier ∧ kind ≠ .string ∧ kind ≠ .number := by
  revert b
  decide +kernel

theorem scanSymbol_good {l l' : Lexer} {b : Byte} {t : Token} (h : l.scanSymbol b = .ok (t, l')) :
    Good t := by
  unfold Lexer.scanSymbol at h
  split at h
  next kind hkind =>
    cases h
    obtain ⟨hident, hstring, hnumber⟩ := symbolKind_good b kind hkind
    unfold Good
    cases kind with
    | identifier => exact absurd rfl hident
    | string => exact absurd rfl hstring
    | number => exact absurd rfl hnumber
    | _ => exact trivial
  · cases h

/-- Whatever the lexer makes carries the payload of its kind. -/
theorem scan_good {l l' : Lexer} {t : Token} (h : l.scan = .ok (t, l')) : Good t := by
  unfold Lexer.scan at h
  split at h
  · cases h
    exact trivial
  next b rest hl =>
    split_ifs at h with hquote hdigit hstart
    · exact scanString_good h
    · exact scanNumber_good h
    · have ht : l.scanIdentifier.1 = t := congrArg Prod.fst (Except.ok.inj h)
      rw [← ht]
      exact scanIdentifier_good hl hstart
    · exact scanSymbol_good h

/-- The same of all tokens. -/
theorem tokenizeAll_good {fuel : Nat} {l : Lexer} {ts : List Token}
    (h : Lexer.tokenizeAll fuel l = .ok ts) : ∀ t ∈ ts, Good t := by
  induction fuel generalizing l ts with
  | zero => cases h
  | succ fuel ih =>
    unfold Lexer.tokenizeAll at h
    split at h
    · cases h
    next t l' ht =>
      have hgood := scan_good ht
      split_ifs at h with hend
      · cases h
        simpa using hgood
      · obtain ⟨ts', hts, rfl⟩ := except_map_ok h
        intro u hu
        rcases List.mem_cons.mp hu with rfl | hu
        · exact hgood
        · exact ih hts u hu

theorem lex_good {input : Bytes} {ts : List Token} (h : lex input = .ok ts) : ∀ t ∈ ts, Good t :=
  tokenizeAll_good h

end SpaceDB.Proofs
