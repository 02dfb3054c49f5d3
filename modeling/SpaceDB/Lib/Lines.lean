import Mathlib.Data.List.TakeWhile
import SpaceDB.Lib.Bytes

/-! Lines of a stream of bytes. The reader is Go's `bufio.Scanner` with
`ScanLines`: it cuts the lines out of a buffer that grows up to a limit. -/

namespace Lib

def newline : Byte := 10

/-- The lines that a newline ends, and what follows the last of them. -/
def cutLines : Bytes → List Bytes × Bytes
  | [] => ([], [])
  | b :: bs =>
    let r := cutLines bs
    if b = newline then ([] :: r.1, r.2)
    else
      match r.1 with
      | [] => ([], b :: r.2)
      | line :: lines => ((b :: line) :: lines, r.2)

def allLines (input : Bytes) (ended : Bool) : List Bytes :=
  let r := cutLines input
  if ended = true ∧ r.2 ≠ [] then r.1 ++ [r.2] else r.1

def dropCR (line : Bytes) : Bytes := if line.getLast? = some 13 then line.dropLast else line

/-- What a reader with a buffer of `limit` bytes makes of a stream: it gives up at
the first line that the buffer cannot hold together with its newline. -/
def readLines (limit : Nat) (input : Bytes) (ended : Bool) : List Bytes :=
  ((allLines input ended).takeWhile fun line => line.length < limit).map dropCR

def spaces : List Bytes :=
  [[9], [10], [11], [12], [13], [32], [0xC2, 0x85], [0xC2, 0xA0], [0xE1, 0x9A, 0x80],
    [0xE2, 0x80, 0xA8], [0xE2, 0x80, 0xA9], [0xE2, 0x80, 0xAF], [0xE2, 0x81, 0x9F],
    [0xE3, 0x80, 0x80]] ++ (List.range 11).map fun i => [0xE2, 0x80, Fin.ofNat 256 (0x80 + i)]

def stripOne (cuts : List Bytes) (text : Bytes) : Option Bytes :=
  (cuts.find? (·.isPrefixOf text)).map fun cut => text.drop cut.length

/-- As often as there is something to strip; every time the text gets shorter. -/
def strip (cuts : List Bytes) : Nat → Bytes → Bytes
  | 0, text => text
  | fuel + 1, text =>
    match stripOne cuts text with
    | some rest => strip cuts fuel rest
    | none => text

def trimSpace (text : Bytes) : Bytes :=
  let left := strip spaces text.length text
  (strip (spaces.map List.reverse) left.length left.reverse).reverse

def scanLines (data : Bytes) (atEOF : Bool) : Option (Nat × Bytes) :=
  if atEOF = true ∧ data = [] then none
  else
    match data.idxOf? newline with
    | some i => some (i + 1, dropCR (data.take i))
    | none => if atEOF then some (data.length, dropCR data) else none

/-- The buffer has `size` bytes. Those from `start` on that are filled and not yet
handed out are `data`. -/
structure LineScanner where
  size : Nat
  start : Nat
  data : Bytes
  ended : Bool
  deriving DecidableEq

inductive Scanned where
  | line (token : Bytes) (s : LineScanner)
  /-- It reads into the rest of the buffer. -/
  | more (s : LineScanner)
  | stopped (tooLong : Bool)
  deriving DecidableEq

namespace LineScanner
variable {limit : Nat}

def new (size : Nat) : LineScanner := ⟨size, 0, [], false⟩

/-- Shift the data to the beginning of the buffer, when much of it or all of it is
used up. -/
def shift (s : LineScanner) : LineScanner :=
  if 0 < s.start ∧ (s.start + s.data.length = s.size ∨ s.size / 2 < s.start) then
    { s with start := 0 }
  else s

/-- Take a larger buffer when this one is full. -/
def grow (limit : Nat) (s : LineScanner) : Option LineScanner :=
  if s.start + s.data.length = s.size then
    if limit ≤ s.size then none
    else some { s with size := min (if s.size = 0 then 4096 else s.size * 2) limit, start := 0 }
  else some s

def scan (limit : Nat) (s : LineScanner) : Scanned :=
  match scanLines s.data s.ended with
  | some (advance, token) =>
    .line token { s with start := s.start + advance, data := s.data.drop advance }
  | none =>
    if s.ended then .stopped false
    else
      match s.shift.grow limit with
      | some s' => .more s'
      | none => .stopped true

def fill (s : LineScanner) (chunk : Bytes) : LineScanner := { s with data := s.data ++ chunk }

def close (s : LineScanner) : LineScanner := { s with ended := true }

end LineScanner

theorem cutLines_free {l : Bytes} (h : newline ∉ l) : cutLines l = ([], l) := by
  induction l with
  | nil => rfl
  | cons b l ih =>
    simp only [List.mem_cons, not_or] at h
    simp [cutLines, ih h.2, Ne.symm h.1]

theorem cutLines_line {l : Bytes} (h : newline ∉ l) (rest : Bytes) :
    cutLines (l ++ newline :: rest) = (l :: (cutLines rest).1, (cutLines rest).2) := by
  induction l with
  | nil => simp [cutLines]
  | cons b l ih =>
    simp only [List.mem_cons, not_or] at h
    simp [cutLines, ih h.2, Ne.symm h.1]

/-- Whole lines in front are cut off one by one. -/
theorem cutLines_lines {lines : List Bytes} (h : ∀ l ∈ lines, newline ∉ l) (rest : Bytes) :
    cutLines (lines.flatMap (· ++ [newline]) ++ rest) =
      (lines ++ (cutLines rest).1, (cutLines rest).2) := by
  induction lines with
  | nil => rfl
  | cons l lines ih =>
    obtain ⟨hl, hlines⟩ := List.forall_mem_cons.mp h
    simp [cutLines_line hl, ih hlines]

/-- Cutting a text into lines loses nothing, and no line has a newline in it. -/
theorem cutLines_eq (input : Bytes) : (∀ l ∈ (cutLines input).1, newline ∉ l) ∧
    newline ∉ (cutLines input).2 ∧
    input = (cutLines input).1.flatMap (· ++ [newline]) ++ (cutLines input).2 := by
  induction input with
  | nil => simp [cutLines]
  | cons b bs ih =>
    obtain ⟨hlines, hlast, hbs⟩ := ih
    by_cases hb : b = newline
    · simp only [cutLines, if_pos hb]
      refine ⟨by simpa using hlines, hlast, ?_⟩
      rw [hb, List.flatMap_cons, List.append_assoc, ← hbs]
      rfl
    · cases hcut : (cutLines bs).1 with
      | nil =>
        rw [hcut] at hbs
        simp only [cutLines, if_neg hb, hcut]
        refine ⟨by simp, by simp [Ne.symm hb, hlast], ?_⟩
        exact congrArg (b :: ·) hbs
      | cons line lines =>
        rw [hcut] at hlines hbs
        simp only [cutLines, if_neg hb, hcut]
        obtain ⟨hline, hlines⟩ := List.forall_mem_cons.mp hlines
        refine ⟨List.forall_mem_cons.mpr ⟨by simp [Ne.symm hb, hline], hlines⟩, hlast, ?_⟩
        exact congrArg (b :: ·) hbs

/-- More input leaves the lines that have ended as they are. -/
theorem allLines_append (input more : Bytes) : allLines (input ++ more) true =
    (cutLines input).1 ++ allLines ((cutLines input).2 ++ more) true := by
  obtain ⟨hlines, -, hinput⟩ := cutLines_eq input
  have hcut := cutLines_lines hlines ((cutLines input).2 ++ more)
  rw [← List.append_assoc, ← hinput] at hcut
  simp only [allLines, hcut]
  split_ifs <;> simp

/-- More input makes the line longer that has not ended. -/
theorem allLines_begins {cut line : Bytes} (hfree : newline ∉ cut) (more : Bytes)
    (h : (allLines (cut ++ more) true).head? = some line) : cut <+: line := by
  by_cases hmore : newline ∈ more
  · obtain ⟨before, after, rfl, hbefore⟩ := List.eq_append_cons_of_mem hmore
    have hcut := cutLines_line (l := cut ++ before) (by simp [hfree, hbefore]) after
    rw [List.append_assoc] at hcut
    obtain rfl : cut ++ before = line := by
      rw [allLines, hcut] at h
      split_ifs at h <;> simpa using h
    exact List.prefix_append _ _
  · rw [allLines, cutLines_free (by simp [hfree, hmore])] at h
    split_ifs at h
    · cases h
      exact List.prefix_append _ _
    · cases h

theorem scanLines_none {data : Bytes} {ended : Bool} (h : scanLines data ended = none) :
    newline ∉ data ∧ (ended = true → data = []) := by
  cases hi : data.idxOf? newline with
  | none =>
    refine ⟨by simpa using hi, fun hended => ?_⟩
    simpa [scanLines, hi, hended] using h
  | some i =>
    simp only [scanLines, hi, ite_eq_left_iff, reduceCtorEq, imp_false, not_not] at h
    simp [h.2]

/-- The next line ends with a newline, or with the stream. -/
theorem scanLines_some {data token : Bytes} {ended : Bool} {n : Nat}
    (h : scanLines data ended = some (n, token)) :
    n ≤ data.length ∧ ∃ line, newline ∉ line ∧ token = dropCR line ∧
      (data = line ++ newline :: data.drop n ∨
        ended = true ∧ line ≠ [] ∧ data = line ∧ data.drop n = []) := by
  unfold scanLines at h
  split at h
  next => cases h
  next hend =>
    cases hi : data.idxOf? newline with
    | some i =>
      rw [hi] at h
      cases h
      obtain ⟨hlt, hget, hbefore⟩ := List.idxOf?_eq_some_iff.mp hi
      refine ⟨hlt, data.take i, fun hmem => ?_, rfl, .inl ?_⟩
      · obtain ⟨j, hj, hjget⟩ := List.mem_take_iff_getElem.mp hmem
        exact hbefore j (by omega) hjget
      · rw [← hget, List.getElem_cons_drop, List.take_append_drop]
    | none =>
      rw [hi] at h
      obtain ⟨hended, h⟩ : ended = true ∧ some (data.length, dropCR data) = some (n, token) := by
        simpa using h
      cases h
      exact ⟨le_rfl, data, by simpa using hi, rfl,
        .inr ⟨hended, fun hnil => hend ⟨hended, hnil⟩, rfl, List.drop_length⟩⟩

section Strips
variable {cuts : List Bytes} {text rest more : Bytes}

theorem stripOne_some (h : stripOne cuts text = some rest) : ∃ cut ∈ cuts, text = cut ++ rest := by
  obtain ⟨cut, hfind, rfl⟩ := Option.map_eq_some_iff.mp h
  have hprefix := List.find?_some hfind
  rw [List.isPrefixOf_iff_prefix] at hprefix
  obtain ⟨tail, rfl⟩ := hprefix
  exact ⟨cut, List.mem_of_find?_eq_some hfind, by simp⟩

theorem stripOne_none : stripOne cuts text = none ↔ ∀ cut ∈ cuts, ¬ cut <+: text := by
  simp [stripOne]

/-- What is stripped is a sequence of the given parts. -/
theorem strip_eq (cuts : List Bytes) (n : Nat) (text : Bytes) :
    ∃ parts : List Bytes, (∀ part ∈ parts, part ∈ cuts) ∧
      text = parts.flatten ++ strip cuts n text := by
  induction n generalizing text with
  | zero => exact ⟨[], by simp, rfl⟩
  | succ n ih =>
    unfold strip
    cases h : stripOne cuts text with
    | none => exact ⟨[], by simp, rfl⟩
    | some rest =>
      obtain ⟨cut, hcut, rfl⟩ := stripOne_some h
      obtain ⟨parts, hparts, hrest⟩ := ih rest
      refine ⟨cut :: parts, List.forall_mem_cons.mpr ⟨hcut, hparts⟩, ?_⟩
      rw [List.flatten_cons, List.append_assoc, ← hrest]

/-- With enough fuel nothing is left to strip. -/
theorem stripOne_strip (hne : [] ∉ cuts) {n : Nat} (hn : text.length ≤ n) :
    stripOne cuts (strip cuts n text) = none := by
  induction n generalizing text with
  | zero =>
    rw [List.length_eq_zero_iff.mp (Nat.le_zero.mp hn)]
    refine stripOne_none.mpr fun cut hcut hle => hne ?_
    rwa [← List.prefix_nil.mp hle]
  | succ n ih =>
    unfold strip
    cases h : stripOne cuts text with
    | none => exact h
    | some rest =>
      obtain ⟨cut, hcut, rfl⟩ := stripOne_some h
      refine ih ?_
      have hlength : 0 < cut.length := List.length_pos_iff.mpr fun hnil => hne (hnil ▸ hcut)
      rw [List.length_append] at hn
      omega

/-- Where no cut begins another, what is stripped does not depend on what comes
behind the first byte that is kept. -/
theorem strip_append (hfree : ∀ a ∈ cuts, ∀ b ∈ cuts, a <+: b → a = b) (hne : [] ∉ cuts) {n m : Nat}
    (hn : text.length ≤ n) (hm : (text ++ more).length ≤ m) {b : Byte}
    (hkept : strip cuts n text = b :: rest) (hb : ∀ cut ∈ cuts, cut.head? ≠ some b) :
    strip cuts m (text ++ more) = b :: rest ++ more := by
  induction n generalizing text m with
  | zero =>
    rw [List.length_eq_zero_iff.mp (Nat.le_zero.mp hn)] at hkept
    cases hkept
  | succ n ih =>
    unfold strip at hkept
    cases h : stripOne cuts text with
    | none =>
      rw [h] at hkept
      dsimp only at hkept
      subst hkept
      have hnone : stripOne cuts (b :: rest ++ more) = none := by
        refine stripOne_none.mpr fun cut hcut hle => hb cut hcut ?_
        cases cut with
        | nil => exact absurd hcut hne
        | cons d cut =>
          obtain ⟨tail, htail⟩ := hle
          rw [(List.cons.inj htail).1]
          rfl
      cases m with
      | zero => rfl
      | succ m =>
        unfold strip
        rw [hnone]
    | some tail =>
      rw [h] at hkept
      obtain ⟨cut, hcut, rfl⟩ := stripOne_some h
      have hlength : 0 < cut.length := List.length_pos_iff.mpr fun hnil => hne (hnil ▸ hcut)
      have hstrip : stripOne cuts (cut ++ tail ++ more) = some (tail ++ more) := by
        cases h' : stripOne cuts (cut ++ tail ++ more) with
        | none =>
          refine absurd ?_ (stripOne_none.mp h' cut hcut)
          rw [List.append_assoc]
          exact List.prefix_append _ _
        | some found =>
          obtain ⟨cut', hcut', hsplit⟩ := stripOne_some h'
          rw [List.append_assoc] at hsplit
          have hcuts : cut = cut' := by
            have hle : cut <+: cut' ++ found := hsplit ▸ List.prefix_append cut _
            rcases List.prefix_or_prefix_of_prefix hle
              (List.prefix_append cut' found) with hle | hle
            · exact hfree cut hcut cut' hcut' hle
            · exact (hfree cut' hcut' cut hcut hle).symm
          subst hcuts
          rw [List.append_cancel_left hsplit]
      simp only [List.length_append] at hn hm
      obtain ⟨m, rfl⟩ : ∃ k, m = k + 1 := ⟨m - 1, by omega⟩
      unfold strip
      rw [hstrip]
      exact ih (by omega) (by rw [List.length_append]; omega) hkept

end Strips

namespace LineScanner
variable {limit : Nat} {s s' : LineScanner} {tokens : List Bytes} {input token : Bytes}

/-- The scanner has handed out `tokens` and has read `input`. -/
structure Follows (limit : Nat) (s : LineScanner) (tokens : List Bytes) (input : Bytes) : Prop where
  size_le : s.size ≤ limit
  fits : s.start + s.data.length ≤ s.size
  fits_ended : s.ended = true → s.start + s.data.length < s.size
  read : ∃ (lines : List Bytes) (last : Option Bytes),
    (∀ l ∈ lines, newline ∉ l ∧ l.length < limit) ∧
    tokens = (lines ++ last.toList).map dropCR ∧
    input = lines.flatMap (· ++ [newline]) ++ last.getD s.data ∧
    ∀ l ∈ last, s.ended = true ∧ s.data = [] ∧ newline ∉ l ∧ l.length < limit ∧ l ≠ []

theorem Follows.new {size : Nat} (h : size ≤ limit) : Follows limit (.new size) [] [] where
  size_le := h
  fits := Nat.zero_le _
  fits_ended := nofun
  read := ⟨[], none, by simp, rfl, rfl, by simp⟩

/-- A line that is handed out is the next one of the stream. -/
theorem Follows.line (h : Follows limit s tokens input) (hscan : s.scan limit = .line token s') :
    Follows limit s' (tokens ++ [token]) input := by
  obtain ⟨hsize, hfits, hended, lines, last, hlines, rfl, hinput, hlast⟩ := h
  unfold scan at hscan
  split at hscan
  next n found hfound =>
    cases hscan
    obtain ⟨hn, line, hfree, rfl, hdata⟩ := scanLines_some hfound
    have hnone : last = none := by
      refine Option.eq_none_iff_forall_not_mem.mpr fun l hl => ?_
      rcases hdata with hdata | ⟨-, hline, hdata, -⟩
      · rw [(hlast l hl).2.1] at hdata
        simp at hdata
      · exact hline (hdata.symm.trans (hlast l hl).2.1)
    subst hnone
    have hposition : s.start + n + (s.data.drop n).length = s.start + s.data.length := by
      rw [List.length_drop]
      omega
    refine ⟨hsize, hposition.trans_le hfits, fun he => hposition.trans_lt (hended he), ?_⟩
    rcases hdata with hdata | ⟨hend, hline, hdata, hnil⟩
    · have hlength := congrArg List.length hdata
      simp only [List.length_append, List.length_cons, List.length_drop] at hlength
      refine ⟨lines ++ [line], none, ?_, by simp, ?_, by simp⟩
      · intro l hl
        rcases List.mem_append.mp hl with hl | hl
        · exact hlines l hl
        · rw [List.mem_singleton.mp hl]
          exact ⟨hfree, by omega⟩
      · rw [hinput]
        simp only [Option.getD_none, List.flatMap_append, List.flatMap_cons, List.flatMap_nil,
          List.append_nil, List.append_assoc, List.singleton_append]
        exact congrArg _ hdata
    · refine ⟨lines, some line, hlines, by simp, by rw [hinput, hdata]; rfl, ?_⟩
      intro l hl
      cases hl
      have hlt := hended hend
      rw [hdata] at hlt
      exact ⟨hend, hnil, hfree, by omega, hline⟩
  next =>
    split at hscan
    · cases hscan
    · split at hscan <;> cases hscan

theorem scan_of_some {found : Nat × Bytes} (h : scanLines s.data s.ended = some found) :
    ∃ s', s.scan limit = .line found.2 s' := by
  simp only [scan, h]
  exact ⟨_, rfl⟩

/-- Every line makes the buffer shorter. -/
theorem scan_line (hscan : s.scan limit = .line token s') :
    s'.data.length < s.data.length ∧ s'.ended = s.ended := by
  unfold scan at hscan
  split at hscan
  next n found hfound =>
    cases hscan
    refine ⟨?_, rfl⟩
    obtain ⟨-, line, -, -, hdata | ⟨-, hline, hdata, hnil⟩⟩ := scanLines_some hfound
    · have hlength := congrArg List.length hdata
      simp only [List.length_append, List.length_cons] at hlength
      dsimp only
      omega
    · simp only [hnil, List.length_nil]
      rw [hdata]
      exact List.length_pos_iff.mpr hline
  next =>
    split at hscan
    · cases hscan
    · split at hscan <;> cases hscan

/-- What the scanner is left with when it has to read. -/
theorem scan_more (hscan : s.scan limit = .more s') :
    newline ∉ s.data ∧ s.ended = false ∧ s.shift.grow limit = some s' := by
  unfold scan at hscan
  split at hscan
  · cases hscan
  next hnone =>
    split_ifs at hscan with hended
    split at hscan
    next hroom =>
      cases hscan
      exact ⟨(scanLines_none hnone).1, by simpa using hended, hroom⟩
    next => cases hscan

theorem shift_eq (s : LineScanner) : s.shift.data = s.data ∧ s.shift.ended = s.ended ∧
    s.shift.size = s.size ∧ s.shift.start ≤ s.start := by
  unfold shift
  split_ifs <;> simp

/-- Growing keeps the data and makes room for at least one more byte. -/
theorem grow_eq (hsize : s.size ≤ limit) (hfits : s.start + s.data.length ≤ s.size)
    (h : s.grow limit = some s') : s'.data = s.data ∧ s'.ended = s.ended ∧ s'.size ≤ limit ∧
      s'.start + s'.data.length < s'.size := by
  unfold grow at h
  split at h
  next hfull =>
    split at h
    · cases h
    · cases h
      refine ⟨rfl, rfl, Nat.min_le_right _ _, ?_⟩
      dsimp only
      split_ifs <;> omega
  next hfull =>
    cases h
    exact ⟨rfl, rfl, hsize, by omega⟩

/-- Making room keeps the data, and there is room then. -/
theorem room_eq (hsize : s.size ≤ limit) (hfits : s.start + s.data.length ≤ s.size)
    (h : s.shift.grow limit = some s') : s'.data = s.data ∧ s'.ended = s.ended ∧ s'.size ≤ limit ∧
      s'.start + s'.data.length < s'.size := by
  obtain ⟨hdata, hended, hsame, hstart⟩ := shift_eq s
  rw [← hdata, ← hended]
  refine grow_eq (hsame.trans_le hsize) ?_ h
  rw [hdata, hsame]
  omega

theorem Follows.more (h : Follows limit s tokens input) (hscan : s.scan limit = .more s') :
    Follows limit s' tokens input ∧ s'.ended = false ∧ s'.start + s'.data.length < s'.size := by
  obtain ⟨-, hended, hroom⟩ := scan_more hscan
  obtain ⟨hdata, hend, hsize, hfits⟩ := room_eq h.size_le h.fits hroom
  refine ⟨⟨hsize, hfits.le, fun _ => hfits, ?_⟩, hend.trans hended, hfits⟩
  rw [hdata, hend]
  exact h.read

/-- Reading more of the stream changes nothing about the lines so far. -/
theorem Follows.fill {chunk : Bytes} (h : Follows limit s tokens input) (hended : s.ended = false)
    (hroom : s.start + s.data.length + chunk.length ≤ s.size) :
    Follows limit (s.fill chunk) tokens (input ++ chunk) := by
  obtain ⟨hsize, -, -, lines, last, hlines, htokens, hinput, hlast⟩ := h
  have hnone : last = none := by
    refine Option.eq_none_iff_forall_not_mem.mpr fun l hl => ?_
    simp [hended] at hlast
    exact hlast l hl
  subst hnone
  refine ⟨hsize, ?_, fun he => ?_, lines, none, hlines, htokens, ?_, by simp⟩
  · simpa [LineScanner.fill, Nat.add_assoc] using hroom
  · cases hended.symm.trans he
  · simp [hinput, LineScanner.fill]

theorem Follows.close (h : Follows limit s tokens input)
    (hroom : s.start + s.data.length < s.size) :
    Follows limit s.close tokens input := by
  obtain ⟨hsize, hfits, -, lines, last, hlines, htokens, hinput, hlast⟩ := h
  refine ⟨hsize, hfits, fun _ => hroom, lines, last, hlines, htokens, hinput, fun l hl => ?_⟩
  exact ⟨rfl, (hlast l hl).2⟩

/-- What is handed out comes before what is still in the buffer. -/
theorem Follows.lines (h : Follows limit s tokens input) :
    ∃ lines : List Bytes, tokens = lines.map dropCR ∧ (∀ l ∈ lines, l.length < limit) ∧
      allLines input s.ended = lines ++ allLines s.data s.ended := by
  obtain ⟨-, -, -, lines, last, hlines, htokens, hinput, hlast⟩ := h
  have hfree : ∀ l ∈ lines, newline ∉ l := fun l hl => (hlines l hl).1
  refine ⟨lines ++ last.toList, htokens, ?_, ?_⟩
  · intro l hl
    rcases List.mem_append.mp hl with hl | hl
    · exact (hlines l hl).2
    · exact (hlast l (Option.mem_toList.mp hl)).2.2.2.1
  · cases last with
    | none =>
      rw [hinput]
      simp only [allLines, cutLines_lines hfree, Option.getD_none, Option.toList_none,
        List.append_nil]
      split_ifs <;> simp
    | some last =>
      obtain ⟨hended, hdata, hlastFree, -, hne⟩ := hlast last rfl
      rw [hinput, hdata, hended]
      simp [allLines, cutLines_lines hfree, cutLines_free hlastFree, hne, cutLines]

/-- No line is skipped or handed out twice. -/
theorem Follows.isPrefix (h : Follows limit s tokens input) :
    tokens <+: readLines limit input s.ended := by
  obtain ⟨lines, rfl, hlength, hall⟩ := h.lines
  rw [readLines, hall, List.takeWhile_append_of_pos (by simpa using hlength), List.map_append]
  exact List.prefix_append _ _

/-- When nothing in the buffer makes a line, all lines have been handed out. -/
theorem Follows.complete (h : Follows limit s tokens input)
    (hnone : scanLines s.data s.ended = none) : tokens = readLines limit input s.ended := by
  obtain ⟨lines, rfl, hlength, hall⟩ := h.lines
  obtain ⟨hfree, hended⟩ := scanLines_none hnone
  have hrest : allLines s.data s.ended = [] := by
    rw [allLines, cutLines_free hfree, if_neg]
    exact fun hend => hend.2 (hended hend.1)
  rw [readLines, hall, hrest, List.append_nil,
    List.takeWhile_eq_self_iff.mpr (by simpa using hlength)]

end LineScanner
end Lib
