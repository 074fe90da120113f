import Mathlib.Tactic
import ReproMPI.Bench.MessageSizes

/-!
# Lists of message sizes

`parse_msize_list` splits its argument at commas with `strtok_r`, which skips empty pieces, and
reads each piece with `strtol`, which skips blanks and a sign in front of the number and
ignores what follows it. So it accepts more than the documented list of positive integers: a
text it does not reject is read right only when every piece holds digits and nothing else.
-/

namespace ReproMPI.Bench

open CString BatchedArray

/-! ## The parser -/

/-- The separator of the list. -/
def isComma (c : Char) : Bool := c == ','

/-- `LEN_MSIZES_BATCH`. -/
def lenMsizesBatch : ℕ := 10

/-- One turn of the loop over the tokens. -/
def pushMsize (st : Store (BitVec 64)) (token : List Char) : Except Halt (Store (BitVec 64)) :=
  match positiveLong token with
  | none => .error .errorExit
  | some msize =>
    match st.push lenMsizesBatch (BitVec.ofInt 64 msize) with
    | none => .error .undefined
    | some st => .ok st

/-- `parse_msize_list`. -/
def parseMsizeList (msizes : List Char) : Except Halt MsizeOptions := do
  let st ← (Strtok.tokens isComma msizes).foldlM pushMsize (Store.empty lenMsizesBatch)
  if st.items.length = 0 then .error .errorExit
  else .ok { nMsize := st.items.length, msizeList := st.items }

/-! ## The documented grammar -/

/-- A decimal integer. -/
def IsNumeral (piece : List Char) : Prop := piece ≠ [] ∧ ∀ c ∈ piece, c.isDigit = true

instance : DecidablePred IsNumeral := fun piece =>
  decidable_of_iff (piece ≠ [] ∧ piece.all Char.isDigit = true) (by simp [IsNumeral])

/-- The value of a decimal integer. -/
def numeralValue (piece : List Char) : ℕ := Nat.ofDigitChars 10 piece 0

/-- The text is a comma-separated list of the positive decimal integers `sizes`, none of them
larger than `LONG_MAX`. -/
def IsSizeList (text : List Char) (sizes : List ℕ) : Prop :=
  List.Forall₂ (fun piece size => IsNumeral piece ∧ numeralValue piece = size ∧ 0 < size ∧
    (size : ℤ) ≤ longMax) (text.splitOn ',') sizes

/-- The options for a list of sizes. -/
def sizeOptions (sizes : List ℕ) : MsizeOptions :=
  { nMsize := sizes.length, msizeList := sizes.map (BitVec.ofNat 64) }

/-- The parser accepts the lists of the grammar, with their values, and rejects all else. -/
structure AcceptsGrammar (text : List Char) : Prop where
  accepts : ∀ sizes, IsSizeList text sizes → parseMsizeList text = .ok (sizeOptions sizes)
  rejects : (¬ ∃ sizes, IsSizeList text sizes) → parseMsizeList text = .error .errorExit

/-! ## What the parser does -/

/-- The piece has a positive number that is a `long` at its front. -/
def Converts (piece : List Char) : Prop := (positiveLong piece).isSome = true

instance : DecidablePred Converts := fun piece => by unfold Converts; infer_instance

/-- The number at the front of a piece. -/
def frontValue (piece : List Char) : ℤ := (positiveLong piece).getD 0

theorem positiveLong_eq_some {piece : List Char} (h : Converts piece) :
    positiveLong piece = some (frontValue piece) := by
  obtain ⟨x, hx⟩ := Option.isSome_iff_exists.mp h
  rw [frontValue]
  rw [hx, Option.getD_some]

theorem positiveLong_eq_none {piece : List Char} (h : ¬ Converts piece) :
    positiveLong piece = none :=
  Option.not_isSome_iff_eq_none.mp h

/-- Tokens that convert are stored. -/
theorem foldlM_pushMsize {tokens : List (List Char)} (h : ∀ t ∈ tokens, Converts t)
    (st : Store (BitVec 64)) :
    tokens.foldlM pushMsize st =
      match (tokens.map fun t => BitVec.ofInt 64 (frontValue t)).foldlM
          (Store.push lenMsizesBatch) st with
      | none => .error .undefined
      | some st => .ok st := by
  induction tokens generalizing st with
  | nil => rfl
  | cons t tokens ih =>
    have ht := positiveLong_eq_some (h t List.mem_cons_self)
    rw [List.foldlM_cons, List.map_cons, List.foldlM_cons]
    rw [pushMsize]
    simp only [ht]
    cases st.push lenMsizesBatch (BitVec.ofInt 64 (frontValue t)) with
    | none => rfl
    | some st' => exact ih (fun t' ht' => h t' (List.mem_cons_of_mem _ ht')) st'

theorem limit_lenMsizesBatch : limit lenMsizesBatch = 2147483640 := by
  unfold limit lenMsizesBatch
  norm_num

/-- The tokens before the first one that does not convert. -/
def leadingTokens (text : List Char) : List (List Char) :=
  (Strtok.tokens isComma text).takeWhile fun t => decide (Converts t)

section Parse

variable {text : List Char}

theorem converts_of_mem_leading {t : List Char} (h : t ∈ leadingTokens text) : Converts t :=
  of_decide_eq_true (List.mem_takeWhile_imp (p := fun t => decide (Converts t)) h)

/-- The tokens that convert are stored as long as the array can grow. -/
theorem foldlM_leading (hlen : (leadingTokens text).length < 2147483640) :
    ∃ st, (leadingTokens text).foldlM pushMsize (Store.empty lenMsizesBatch) = .ok st ∧
      st.items = (leadingTokens text).map fun t => BitVec.ofInt 64 (frontValue t) := by
  have hempty : Store.Ok lenMsizesBatch (Store.empty lenMsizesBatch : Store (BitVec 64)) :=
    Store.empty_ok
  obtain ⟨st, hfold, hitems, -⟩ := hempty.foldlM_push
    ((leadingTokens text).map fun t => BitVec.ofInt 64 (frontValue t)) (by decide) (by
      rw [limit_lenMsizesBatch]
      simpa [Store.empty] using hlen)
  refine ⟨st, ?_, hitems⟩
  rw [foldlM_pushMsize fun t => converts_of_mem_leading, hfold]

theorem foldlM_leading_undefined (hlen : 2147483640 ≤ (leadingTokens text).length) :
    (leadingTokens text).foldlM pushMsize (Store.empty lenMsizesBatch) = .error .undefined := by
  have hempty : Store.Ok lenMsizesBatch (Store.empty lenMsizesBatch : Store (BitVec 64)) :=
    Store.empty_ok
  have hfold := hempty.foldlM_push_limit
    ((leadingTokens text).map fun t => BitVec.ofInt 64 (frontValue t)) (by decide)
    (by rw [limit_lenMsizesBatch]; decide) (by
      rw [limit_lenMsizesBatch]
      simpa [Store.empty] using hlen)
  rw [foldlM_pushMsize fun t => converts_of_mem_leading, hfold]

theorem tokens_eq_leading_append (text : List Char) :
    Strtok.tokens isComma text = leadingTokens text ++
      (Strtok.tokens isComma text).dropWhile fun t => decide (Converts t) :=
  (List.takeWhile_append_dropWhile).symm

/-- Too many sizes: the array cannot grow any more. -/
theorem parseMsizeList_undefined (hlen : 2147483640 ≤ (leadingTokens text).length) :
    parseMsizeList text = .error .undefined := by
  rw [parseMsizeList]
  rw [tokens_eq_leading_append, List.foldlM_append, foldlM_leading_undefined hlen]
  rfl

/-- A token without a number, or no token at all: the parser ends with an error. -/
theorem parseMsizeList_errorExit (hlen : (leadingTokens text).length < 2147483640)
    (h : Strtok.tokens isComma text = [] ∨ ∃ t ∈ Strtok.tokens isComma text, ¬ Converts t) :
    parseMsizeList text = .error .errorExit := by
  rcases h with hnil | ⟨t, ht, hbad⟩
  · rw [parseMsizeList]
    rw [hnil]
    rfl
  · obtain ⟨st, hfold, -⟩ := foldlM_leading hlen
    rw [parseMsizeList]
    rw [tokens_eq_leading_append, List.foldlM_append, hfold]
    cases hrest : (Strtok.tokens isComma text).dropWhile fun t => decide (Converts t) with
    | nil =>
      have hall := List.dropWhile_eq_nil_iff.mp hrest t ht
      exact absurd (of_decide_eq_true hall) hbad
    | cons u rest =>
      have hu := List.head?_dropWhile_not (fun t => decide (Converts t))
        (Strtok.tokens isComma text)
      rw [hrest] at hu
      have hnone := positiveLong_eq_none (of_decide_eq_false hu)
      show ((u :: rest).foldlM pushMsize st >>= _) = _
      rw [List.foldlM_cons]
      rw [pushMsize]
      simp only [hnone]
      rfl

/-- Otherwise the numbers in front of the tokens are the sizes. -/
theorem parseMsizeList_ok (hlen : (leadingTokens text).length < 2147483640)
    (hne : Strtok.tokens isComma text ≠ [])
    (h : ∀ t ∈ Strtok.tokens isComma text, Converts t) :
    parseMsizeList text =
      .ok { nMsize := (Strtok.tokens isComma text).length
            msizeList := (Strtok.tokens isComma text).map fun t =>
              BitVec.ofInt 64 (frontValue t) } := by
  have hleading : leadingTokens text = Strtok.tokens isComma text :=
    List.takeWhile_eq_self_iff.mpr fun t ht => decide_eq_true (h t ht)
  obtain ⟨st, hfold, hitems⟩ := foldlM_leading hlen
  rw [hleading] at hfold hitems
  have hlength : st.items.length = (Strtok.tokens isComma text).length := by
    rw [hitems, List.length_map]
  rw [parseMsizeList]
  rw [hfold]
  show (if st.items.length = 0 then _ else _) = _
  rw [if_neg (by rw [hlength]; exact fun h => hne (List.length_eq_zero_iff.mp h)), hlength,
    hitems]

end Parse

/-! ## Texts of the grammar -/

section Grammar

variable {text piece : List Char}

/-- A numeral is read completely. -/
theorem positiveLong_numeral (h : IsNumeral piece) :
    positiveLong piece =
      if 0 < numeralValue piece ∧ (numeralValue piece : ℤ) ≤ longMax then
        some (numeralValue piece : ℤ) else none := by
  obtain ⟨hne, hdigits⟩ := h
  obtain ⟨c, s, rfl⟩ := List.exists_cons_of_ne_nil hne
  obtain ⟨hminus, hplus, hspace⟩ := isDigit_ne (hdigits c List.mem_cons_self)
  have htake : (c :: s).takeWhile Char.isDigit = c :: s := List.takeWhile_eq_self_iff.mpr hdigits
  have hdrop : (c :: s).dropWhile Char.isDigit = [] := List.dropWhile_eq_nil_iff.mpr hdigits
  have hread : readInt (c :: s) = some ((numeralValue (c :: s) : ℤ), []) := by
    rw [readInt]
    rw [List.dropWhile_cons_of_neg (by simp [hspace]),
      readSigned.eq_3 _ (by rintro u ⟨⟩; exact hminus rfl) (by rintro u ⟨⟩; exact hplus rfl)]
    rw [readDigits]
    rw [htake, hdrop]
    rfl
  rw [positiveLong, strToLong, longMax]
  simp only [hread, Option.bind_eq_bind, Option.bind_some]
  by_cases hpos : 0 < numeralValue (c :: s)
  · by_cases hle : (numeralValue (c :: s) : ℤ) ≤ 9223372036854775807
    · rw [if_pos ⟨by omega, hle⟩, if_pos ⟨hpos, hle⟩, Option.bind_some, if_neg (by omega)]
    · rw [if_neg fun h => hle h.2, if_neg fun h => hle h.2, Option.bind_none]
  · rw [if_pos ⟨by omega, by omega⟩, if_neg fun h => hpos h.1, Option.bind_some,
      if_pos (by omega)]

theorem numeral_converts_iff (h : IsNumeral piece) :
    Converts piece ↔ 0 < numeralValue piece ∧ (numeralValue piece : ℤ) ≤ longMax := by
  rw [Converts]
  rw [positiveLong_numeral h]
  split
  · next hrange => exact iff_of_true rfl hrange
  · next hrange => exact iff_of_false Bool.false_ne_true hrange

theorem frontValue_numeral (h : IsNumeral piece) (hc : Converts piece) :
    frontValue piece = numeralValue piece := by
  rw [frontValue]
  rw [positiveLong_numeral h, if_pos ((numeral_converts_iff h).mp hc), Option.getD_some]

/-- Without an empty piece the tokens are the pieces. -/
theorem tokens_eq_pieces (h : ∀ piece ∈ text.splitOn ',', IsNumeral piece) :
    Strtok.tokens isComma text = text.splitOn ',' := by
  rw [Strtok.tokens_eq_filter]
  exact List.filter_eq_self.mpr fun piece hpiece => decide_eq_true (h piece hpiece).1

/-- A list of the grammar: its pieces are numerals in range. -/
theorem isSizeList_iff {sizes : List ℕ} :
    IsSizeList text sizes ↔
      (∀ piece ∈ text.splitOn ',', IsNumeral piece ∧ Converts piece) ∧
        sizes = (text.splitOn ',').map numeralValue := by
  rw [IsSizeList]
  generalize text.splitOn ',' = pieces
  constructor
  · intro h
    induction h with
    | nil => exact ⟨fun piece hpiece => absurd hpiece List.not_mem_nil, rfl⟩
    | @cons piece size pieces sizes hpiece _ ih =>
      obtain ⟨hnumeral, rfl, hpos, hle⟩ := hpiece
      obtain ⟨hall, rfl⟩ := ih
      exact ⟨List.forall_mem_cons.mpr
        ⟨⟨hnumeral, (numeral_converts_iff hnumeral).mpr ⟨hpos, hle⟩⟩, hall⟩, rfl⟩
  · rintro ⟨hall, rfl⟩
    rw [List.forall₂_map_right_iff, List.forall₂_same]
    intro piece hpiece
    obtain ⟨hnumeral, hconverts⟩ := hall piece hpiece
    obtain ⟨hpos, hle⟩ := (numeral_converts_iff hnumeral).mp hconverts
    exact ⟨hnumeral, rfl, hpos, hle⟩

theorem splitOn_ne_nil (text : List Char) : text.splitOn ',' ≠ [] := List.splitOn_ne_nil _ _

/-- A list of the grammar is read to its values. -/
theorem parseMsizeList_of_numerals (hlen : (leadingTokens text).length < 2147483640)
    (h : ∀ piece ∈ text.splitOn ',', IsNumeral piece ∧ Converts piece) :
    parseMsizeList text = .ok (sizeOptions ((text.splitOn ',').map numeralValue)) := by
  have htokens : Strtok.tokens isComma text = text.splitOn ',' :=
    tokens_eq_pieces fun piece hpiece => (h piece hpiece).1
  rw [parseMsizeList_ok hlen (by rw [htokens]; exact splitOn_ne_nil text)
    (by rw [htokens]; exact fun t ht => (h t ht).2), htokens]
  rw [sizeOptions]
  rw [List.length_map, List.map_map]
  refine congrArg Except.ok (congrArg (MsizeOptions.mk _) (List.map_congr_left fun t ht => ?_))
  obtain ⟨hnumeral, hconverts⟩ := h t ht
  rw [frontValue_numeral hnumeral hconverts, BitVec.ofInt_natCast]
  rfl

/-- The parser follows the grammar on a text exactly when fewer than `2 ^ 31 - 8` sizes have to
be stored and the text has no piece, or a piece without a positive number in front, or nothing
but numerals for pieces. -/
theorem acceptsGrammar_iff (text : List Char) :
    AcceptsGrammar text ↔
      (leadingTokens text).length < 2147483640 ∧
        (Strtok.tokens isComma text = [] ∨ (∃ t ∈ Strtok.tokens isComma text, ¬ Converts t) ∨
          ∀ piece ∈ text.splitOn ',', IsNumeral piece) := by
  rcases Nat.lt_or_ge (leadingTokens text).length 2147483640 with hlen | hlen
  · rw [and_iff_right hlen]
    by_cases herror : Strtok.tokens isComma text = [] ∨
        ∃ t ∈ Strtok.tokens isComma text, ¬ Converts t
    · -- rejected, and no list of the grammar
      have hparse := parseMsizeList_errorExit hlen herror
      refine iff_of_true ⟨fun sizes hsizes => ?_, fun _ => hparse⟩ (or_assoc.mp (.inl herror))
      obtain ⟨hall, -⟩ := isSizeList_iff.mp hsizes
      have htokens := tokens_eq_pieces fun piece hpiece => (hall piece hpiece).1
      rw [htokens] at herror
      rcases herror with hnil | ⟨t, ht, hbad⟩
      · exact absurd hnil (splitOn_ne_nil text)
      · exact absurd (hall t ht).2 hbad
    · rw [← or_assoc, or_iff_right herror]
      rw [not_or] at herror
      obtain ⟨hne, hconverts⟩ := herror
      push Not at hconverts
      constructor
      · intro h
        by_contra hpieces
        have hnone : ¬ ∃ sizes, IsSizeList text sizes := by
          rintro ⟨sizes, hsizes⟩
          exact hpieces fun piece hpiece => ((isSizeList_iff.mp hsizes).1 piece hpiece).1
        have hreject := h.rejects hnone
        rw [parseMsizeList_ok hlen hne hconverts] at hreject
        cases hreject
      · intro hpieces
        have htokens := tokens_eq_pieces hpieces
        have hall : ∀ piece ∈ text.splitOn ',', IsNumeral piece ∧ Converts piece :=
          fun piece hpiece => ⟨hpieces piece hpiece, hconverts piece (htokens ▸ hpiece)⟩
        refine ⟨fun sizes hsizes => ?_, fun hnone => ?_⟩
        · rw [(isSizeList_iff.mp hsizes).2]
          exact parseMsizeList_of_numerals hlen hall
        · exact absurd ⟨_, isSizeList_iff.mpr ⟨hall, rfl⟩⟩ hnone
  · -- the array cannot hold the sizes
    have hparse := parseMsizeList_undefined hlen
    refine iff_of_false (fun h => ?_) fun h => absurd h.1 (not_lt.mpr hlen)
    by_cases hsizes : ∃ sizes, IsSizeList text sizes
    · obtain ⟨sizes, hsizes⟩ := hsizes
      have haccept := h.accepts sizes hsizes
      rw [hparse] at haccept
      cases haccept
    · have hreject := h.rejects hsizes
      rw [hparse] at hreject
      cases hreject

end Grammar

/-- `--msizes-list=8kB` and `--msizes-list=8,,16` are no lists of the grammar, and the sizes
are 8, and 8 and 16. -/
theorem parseMsizeList_lenient :
    (¬ ∃ sizes, IsSizeList "8kB".toList sizes) ∧
      parseMsizeList "8kB".toList = .ok { nMsize := 1, msizeList := [8] } ∧
      (¬ ∃ sizes, IsSizeList "8,,16".toList sizes) ∧
      parseMsizeList "8,,16".toList = .ok { nMsize := 2, msizeList := [8, 16] } := by
  refine ⟨?_, ?_, ?_, ?_⟩
  · rintro ⟨sizes, h⟩
    have hpiece := ((isSizeList_iff.mp h).1 "8kB".toList (by decide)).1
    exact absurd (hpiece.2 'k' (by decide)) (by decide)
  · rw [parseMsizeList]
    rw [Strtok.tokens_eq_filter]
    decide
  · rintro ⟨sizes, h⟩
    have hpiece := ((isSizeList_iff.mp h).1 [] (by decide)).1
    exact absurd hpiece (by decide)
  · rw [parseMsizeList]
    rw [Strtok.tokens_eq_filter]
    decide

end ReproMPI.Bench
