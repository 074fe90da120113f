import Mathlib.Tactic
import ReproMPI.Lib.FallibleLoop
import ReproMPI.Lib.LineBuffer

/-!
# The input file of the checker

The constructor of `PGInput` reads the file line by line through a buffer of 512 characters
and takes every line that is not a comment for a collective, a blank and the options. A blank
line fails an assertion, a line without a blank is taken for the collective and for the
options, and the first line that does not fit into the buffer ends the input.
-/

namespace ReproMPI.Pgcheck

open CString TextLines LineBuffer

/-- The two vectors of a `PGInput`. -/
structure PGInput where
  mpiCollectives : List (List Char) := []
  callOptions : List (List Char) := []
  deriving DecidableEq, Repr

/-! ## `std::string` -/

/-- `std::string::npos`. -/
def npos : ℕ := 18446744073709551615

/-- `s.find(c)`. -/
def find (s : List Char) (c : Char) : ℕ := if c ∈ s then s.idxOf c else npos

/-- `s.substr(pos, len)`; `none` is `std::out_of_range`. -/
def substr (s : List Char) (pos len : ℕ) : Option (List Char) :=
  if pos ≤ s.length then some ((s.drop pos).take len) else none

/-- The conversion of a signed number to `size_t`. -/
def sizeT (x : ℤ) : ℕ := (x % 18446744073709551616).toNat

/-- `std::string line(buf)`: the characters of the buffer up to the first `NUL`. -/
def ofBuffer (buf : List Char) : List Char := buf.takeWhile (· ≠ '\x00')

/-! ## The constructor -/

/-- The collective and the options of a line, split at `int whitespace_pos`; `none` is a failed
assertion. -/
def splitLine (line : List Char) : Option (List Char × List Char) := do
  let whitespacePos := CInt.ofLong (find line ' ')
  let mpiCallName ← substr line 0 (sizeT whitespacePos)
  let callOptions ← substr line (sizeT (← CInt.check (whitespacePos + 1)))
    (sizeT (line.length - whitespacePos - 1))
  if mpiCallName.isEmpty || callOptions.isEmpty then none
  else some (mpiCallName, callOptions)

/-- The body of the loop. -/
def PGInput.pushLine (self : PGInput) (buf : List Char) : Option PGInput :=
  let line := trim (ofBuffer buf)
  if line.head? = some '#' then some self
  else do
    let (mpiCallName, callOptions) ← splitLine line
    some { mpiCollectives := self.mpiCollectives ++ [mpiCallName]
           callOptions := self.callOptions ++ [callOptions] }

/-- `PGInput::PGInput` on the contents of a file. -/
def PGInput.read (file : List Char) : Option PGInput :=
  forLines 512 PGInput.pushLine {} (.opened file)

/-! ## What the file asks for -/

/-- A line that starts with the comment sign, after trimming. -/
def IsCommentLine (line : List Char) : Prop := (trim line).head? = some '#'

instance : DecidablePred IsCommentLine := fun line => by unfold IsCommentLine; infer_instance

/-- A line that is blank or a comment. -/
def IsSkipped (line : List Char) : Prop := trim line = [] ∨ IsCommentLine line

instance : DecidablePred IsSkipped := fun line => by unfold IsSkipped; infer_instance

/-- The test case of a line: its first word, and the rest of it after the blank. -/
def wantedCase (line : List Char) : List (List Char × List Char) :=
  if IsSkipped line then []
  else [((trim line).takeWhile (· ≠ ' '), ((trim line).dropWhile (· ≠ ' ')).tail)]

/-- One test case for every line that is neither blank nor a comment. -/
def wantedCases (file : List Char) : List (List Char × List Char) :=
  (textLines file).flatMap wantedCase

/-- The vectors that hold a list of test cases. -/
def PGInput.ofCases (cases : List (List Char × List Char)) : PGInput :=
  { mpiCollectives := cases.map Prod.fst, callOptions := cases.map Prod.snd }

theorem PGInput.ofCases_injective : Function.Injective PGInput.ofCases := by
  intro cases cases' h
  have hfst := congrArg PGInput.mpiCollectives h
  have hsnd := congrArg PGInput.callOptions h
  calc cases = (cases.map Prod.fst).zip (cases.map Prod.snd) :=
        List.zip_of_prod rfl rfl
    _ = (cases'.map Prod.fst).zip (cases'.map Prod.snd) := congrArg₂ List.zip hfst hsnd
    _ = cases' := (List.zip_of_prod rfl rfl).symm

/-! ## What the loop makes of the lines -/

/-- The test cases the body of the loop adds for one line. -/
def lineCases (buf : List Char) : Option (List (List Char × List Char)) :=
  if IsCommentLine (ofBuffer buf) then some []
  else (splitLine (trim (ofBuffer buf))).map fun testCase => [testCase]

theorem pushLine_ofCases (cases : List (List Char × List Char)) (buf : List Char) :
    (PGInput.ofCases cases).pushLine buf =
      (lineCases buf).map fun new => .ofCases (cases ++ new) := by
  rw [PGInput.pushLine, lineCases]
  by_cases hcomment : IsCommentLine (ofBuffer buf)
  · have hhead : (trim (ofBuffer buf)).head? = some '#' := hcomment
    rw [if_pos hcomment, Option.map_some, List.append_nil]
    exact if_pos hhead
  · have hhead : (trim (ofBuffer buf)).head? ≠ some '#' := hcomment
    rw [if_neg hcomment, Option.map_map]
    refine (if_neg hhead).trans ?_
    cases splitLine (trim (ofBuffer buf)) with
    | none => rfl
    | some testCase =>
      refine congrArg some ?_
      simp only [PGInput.ofCases, Function.comp_apply, List.map_append, List.map_cons,
        List.map_nil]

theorem foldlM_pushLine (cases : List (List Char × List Char)) (lines : List (List Char)) :
    lines.foldlM PGInput.pushLine (.ofCases cases) =
      (lines.mapM lineCases).map fun new => .ofCases (cases ++ new.flatten) := by
  induction lines generalizing cases with
  | nil =>
    rw [List.foldlM_nil, List.mapM_nil]
    show some _ = some (PGInput.ofCases (cases ++ []))
    rw [List.append_nil]
  | cons line lines ih =>
    rw [List.foldlM_cons, pushLine_ofCases, List.mapM_cons]
    cases lineCases line with
    | none => rfl
    | some new =>
      simp only [Option.map_some, Option.bind_eq_bind, Option.bind_some, ih]
      cases lines.mapM lineCases with
      | none => rfl
      | some rest =>
        simp only [Option.map_some, Option.bind_some, Option.pure_def, List.flatten_cons,
          List.append_assoc]

/-- The file is read up to the first line that does not fit into the buffer. -/
theorem read_eq (file : List Char) :
    PGInput.read file =
      (((textLines file).takeWhile (·.length ≤ 511)).mapM lineCases).map
        fun new => .ofCases new.flatten := by
  have hempty : ({} : PGInput) = .ofCases [] := rfl
  rw [PGInput.read]
  rw [forLines_opened, hempty]
  exact foldlM_pushLine [] _

/-! ## Splitting a line -/

section Split

variable {line : List Char}

theorem sizeT_natCast {n : ℕ} (hn : n < 2147483648) : sizeT n = n := by
  rw [sizeT]
  omega

/-- A line with a blank is split there, if there is something on both sides. -/
theorem splitLine_append {w r : List Char} (hline : line = w ++ ' ' :: r) (hw : ' ' ∉ w)
    (hwne : w ≠ []) (hrne : r ≠ []) (hlen : line.length < 2147483648) :
    splitLine line = some (w, r) := by
  have hlength : line.length = w.length + r.length + 1 := by
    rw [hline, List.length_append, List.length_cons, Nat.add_assoc]
  have hfind : find line ' ' = w.length := by
    rw [find]
    rw [if_pos (by simp [hline]), hline, List.idxOf_append_of_notMem hw, List.idxOf_cons_self,
      Nat.add_zero]
  have hpos : CInt.ofLong (w.length : ℤ) = w.length :=
    CInt.ofLong_of_inRange ⟨by omega, by omega⟩
  have hnext : CInt.check ((w.length : ℤ) + 1) = some ((w.length + 1 : ℕ) : ℤ) := by
    rw [CInt.check_of_inRange ⟨by omega, by omega⟩]
    push_cast
    rfl
  have hrest : ((line.length : ℤ) - w.length - 1) = (r.length : ℕ) := by
    rw [hlength]
    push_cast
    ring
  have hname : substr line 0 (sizeT (w.length : ℤ)) = some w := by
    rw [substr]
    rw [if_pos (Nat.zero_le _), sizeT_natCast (by omega), hline, List.drop_zero,
      List.take_left]
  have hoptions : substr line (sizeT ((w.length + 1 : ℕ) : ℤ)) (sizeT (r.length : ℤ)) = some r := by
    rw [substr]
    rw [sizeT_natCast (by omega), sizeT_natCast (by omega), if_pos (by omega), hline,
      ← List.drop_drop, List.drop_left, List.drop_one, List.tail_cons, List.take_length]
  have hempty : (w.isEmpty || r.isEmpty) = false := by
    simp [hwne, hrne]
  rw [splitLine]
  simp only [hfind, hpos, hnext, hrest, hname, hoptions, Option.bind_eq_bind, Option.bind_some,
    hempty]
  rfl

/-- A line without a blank is taken twice: the position `-1` is before its start. -/
theorem splitLine_of_not_mem (hline : ' ' ∉ line) (hne : line ≠ [])
    (hlen : line.length < 2147483648) : splitLine line = some (line, line) := by
  have hfind : find line ' ' = npos := if_neg hline
  have hpos : CInt.ofLong (npos : ℤ) = -1 := by decide
  have hrest : sizeT ((line.length : ℤ) - -1 - 1) = line.length := by
    rw [sizeT]
    omega
  have hname : substr line 0 (sizeT (-1)) = some line := by
    have hle : line.length ≤ sizeT (-1) := hlen.le.trans (by decide)
    rw [substr]
    rw [if_pos (Nat.zero_le _), List.drop_zero, List.take_of_length_le hle]
  have hoptions : substr line 0 line.length = some line := by
    rw [substr]
    rw [if_pos (Nat.zero_le _), List.drop_zero, List.take_length]
  have hnext : CInt.check (-1 + 1) = some 0 := by decide
  have hzero : sizeT 0 = 0 := by decide
  have hempty : line.isEmpty = false := by simpa using hne
  rw [splitLine]
  simp only [hfind, hpos, hname, hrest, hnext, hzero, hoptions, Option.bind_eq_bind,
    Option.bind_some, hempty]
  rfl

theorem splitLine_nil : splitLine [] = none := by
  decide

theorem substr_subset {s t : List Char} {pos len : ℕ} (h : substr s pos len = some t) :
    t ⊆ s := by
  rw [substr] at h
  split at h
  · rw [← Option.some.inj h]
    exact List.Subset.trans (List.take_subset _ _) (List.drop_subset _ _)
  · cases h

/-- The parts of a line hold nothing that is not in the line. -/
theorem splitLine_subset {name options : List Char} (h : splitLine line = some (name, options)) :
    name ⊆ line ∧ options ⊆ line := by
  rw [splitLine] at h
  simp only [Option.bind_eq_bind] at h
  obtain ⟨name', hname, h⟩ := Option.bind_eq_some_iff.mp h
  obtain ⟨next, -, h⟩ := Option.bind_eq_some_iff.mp h
  obtain ⟨options', hoptions, h⟩ := Option.bind_eq_some_iff.mp h
  split at h
  · cases h
  · obtain ⟨rfl, rfl⟩ := Prod.mk.inj (Option.some.inj h)
    exact ⟨substr_subset hname, substr_subset hoptions⟩

end Split

/-! ## One line -/

section Line

variable {line : List Char}

theorem not_mem_ofBuffer (line : List Char) : '\x00' ∉ ofBuffer line := by
  intro h
  exact absurd (List.mem_takeWhile_imp h) (by decide)

theorem ofBuffer_eq_self (h : '\x00' ∉ line) : ofBuffer line = line :=
  List.takeWhile_eq_self_iff.mpr (forall_mem_ne h)

/-- `NUL` is not a blank, so the blanks in front of a line are before the cut. -/
theorem dropWhile_ofBuffer (line : List Char) :
    (ofBuffer line).dropWhile isSpace = ofBuffer (line.dropWhile isSpace) := by
  rw [ofBuffer]
  induction line with
  | nil => rfl
  | cons c line ih =>
    by_cases hspace : isSpace c = true
    · have hc : c ≠ '\x00' := by
        rintro rfl
        exact absurd hspace (by decide)
      rw [List.takeWhile_cons_of_pos (by simpa using hc), List.dropWhile_cons_of_pos hspace,
        List.dropWhile_cons_of_pos hspace, ih]
    · rw [List.dropWhile_cons_of_neg hspace]
      refine dropWhile_of_head fun d t h => ?_
      have hhead := congrArg List.head? h
      rw [List.head?_takeWhile, List.head?_cons, List.head?_cons] at hhead
      obtain ⟨heq, -⟩ := Option.filter_eq_some_iff.mp hhead
      obtain rfl := Option.some.inj heq
      exact Bool.eq_false_iff.mpr hspace

/-- The cut does not change which lines are comments. -/
theorem isCommentLine_ofBuffer_iff : IsCommentLine (ofBuffer line) ↔ IsCommentLine line := by
  simp only [IsCommentLine]
  rw [head?_trim, head?_trim, dropWhile_ofBuffer, ofBuffer, List.head?_takeWhile,
    Option.filter_eq_some_iff]
  exact and_iff_left (by decide)

theorem lineCases_of_comment (h : IsCommentLine line) :
    lineCases line = some [] ∧ wantedCase line = [] :=
  ⟨if_pos (isCommentLine_ofBuffer_iff.mpr h), if_pos (.inr h)⟩

theorem lineCases_of_not_comment (h : ¬ IsCommentLine line) :
    lineCases line = (splitLine (trim (ofBuffer line))).map fun testCase => [testCase] :=
  if_neg fun h' => h (isCommentLine_ofBuffer_iff.mp h')

/-- A line adds a test case when it should add one, or ends the program. -/
theorem length_lineCases {new : List (List Char × List Char)} (h : lineCases line = some new) :
    new.length = (wantedCase line).length := by
  by_cases hcomment : IsCommentLine line
  · obtain ⟨hcases, hwanted⟩ := lineCases_of_comment hcomment
    rw [hcases] at h
    rw [← Option.some.inj h, hwanted]
  · rw [lineCases_of_not_comment hcomment] at h
    obtain ⟨testCase, hsplit, rfl⟩ := Option.map_eq_some_iff.mp h
    have hblank : trim line ≠ [] := by
      intro hnil
      have hcut : trim (ofBuffer line) = [] :=
        trim_eq_nil_iff.mpr fun c hc =>
          trim_eq_nil_iff.mp hnil c ((List.takeWhile_sublist _).subset hc)
      rw [hcut, splitLine_nil] at hsplit
      cases hsplit
    rw [wantedCase, if_neg fun h => h.elim hblank hcomment]
    rfl

/-- What the parser needs of a line that is not a comment: a blank after trimming. A `NUL`
cuts the line off. -/
def IsCaseLine (line : List Char) : Prop := ' ' ∈ trim line ∧ '\x00' ∉ line

instance : DecidablePred IsCaseLine := fun line => by unfold IsCaseLine; infer_instance

/-- The two parts of a trimmed line with a blank in it. -/
theorem exists_trim_eq (h : ' ' ∈ trim line) :
    ∃ w r, trim line = w ++ ' ' :: r ∧ ' ' ∉ w ∧ w ≠ [] ∧ r ≠ [] := by
  obtain ⟨w, r, heq, hw⟩ := List.eq_append_cons_of_mem h
  refine ⟨w, r, heq, hw, ?_, ?_⟩
  · rintro rfl
    exact absurd (trim_head heq) (by decide)
  · rintro rfl
    exact absurd (trim_last heq) (by decide)

theorem mem_word_or_rest {s : List Char} {c : Char} (hmem : c ∈ s) (hc : c ≠ ' ') :
    c ∈ s.takeWhile (· ≠ ' ') ∨ c ∈ (s.dropWhile (· ≠ ' ')).tail := by
  rw [← List.takeWhile_append_dropWhile (p := fun d => decide (d ≠ ' ')) (l := s)] at hmem
  refine (List.mem_append.mp hmem).imp_right fun hdrop => ?_
  cases hrest : s.dropWhile (· ≠ ' ') with
  | nil =>
    rw [hrest] at hdrop
    exact absurd hdrop List.not_mem_nil
  | cons d t =>
    have hhead := List.head?_dropWhile_not (fun d => decide (d ≠ ' ')) s
    rw [hrest] at hhead hdrop
    have hd : d = ' ' := by simpa using hhead
    exact (List.mem_cons.mp hdrop).resolve_left fun heq => hc (heq.trans hd)

/-- The line adds the wanted test case. -/
theorem lineCases_of_caseLine (hlen : line.length < 2147483648) (hcomment : ¬ IsCommentLine line)
    (h : IsCaseLine line) : lineCases line = some (wantedCase line) := by
  obtain ⟨hblank, hnul⟩ := h
  obtain ⟨w, r, heq, hw, hwne, hrne⟩ := exists_trim_eq hblank
  have hskipped : ¬ IsSkipped line := by
    rintro (hnil | hhash)
    · rw [hnil] at hblank
      exact List.not_mem_nil hblank
    · exact hcomment hhash
  rw [lineCases_of_not_comment hcomment, ofBuffer_eq_self hnul,
    splitLine_append heq hw hwne hrne ((length_trim_le line).trans_lt hlen), wantedCase,
    if_neg hskipped, heq, takeWhile_ne_append hw, dropWhile_ne_append hw]
  rfl

/-- Otherwise it adds the wrong one, or the program ends. -/
theorem lineCases_ne_of_not_caseLine (hlen : line.length < 2147483648)
    (hcomment : ¬ IsCommentLine line) (h : ¬ IsCaseLine line) :
    lineCases line ≠ some (wantedCase line) := by
  rw [lineCases_of_not_comment hcomment]
  intro heq
  obtain ⟨⟨name, options⟩, hsplit, hcase⟩ := Option.map_eq_some_iff.mp heq
  have hskipped : ¬ IsSkipped line := by
    intro hskip
    rw [wantedCase, if_pos hskip] at hcase
    cases hcase
  rw [wantedCase, if_neg hskipped] at hcase
  obtain ⟨hname, hoptions⟩ := Prod.mk.inj (List.cons.inj hcase).1
  by_cases hnul : '\x00' ∈ line
  · -- the cut lost the `NUL`, which the wanted case has in one of its parts
    obtain ⟨hnameSub, hoptionsSub⟩ := splitLine_subset hsplit
    have hcut : '\x00' ∉ trim (ofBuffer line) := fun h =>
      not_mem_ofBuffer line ((trim_sublist _).subset h)
    have hmem : '\x00' ∈ trim line := (mem_trim (by decide)).mpr hnul
    rcases mem_word_or_rest hmem (by decide) with hword | hrest
    · exact hcut (hnameSub (hname ▸ hword))
    · exact hcut (hoptionsSub (hoptions ▸ hrest))
  · -- without a blank the options are the whole line instead of nothing
    have hblank : ' ' ∉ trim line := fun hblank => h ⟨hblank, hnul⟩
    have hne : trim line ≠ [] := fun hnil => hskipped (.inl hnil)
    rw [ofBuffer_eq_self hnul,
      splitLine_of_not_mem hblank hne ((length_trim_le line).trans_lt hlen)] at hsplit
    obtain ⟨-, rfl⟩ := Prod.mk.inj (Option.some.inj hsplit)
    have hall : ∀ c ∈ trim line, decide (c ≠ ' ') = true := fun c hc =>
      decide_eq_true fun heq => hblank (heq ▸ hc)
    rw [List.dropWhile_eq_nil_iff.mpr hall] at hoptions
    exact hne hoptions

theorem lineCases_eq_wanted_iff (hlen : line.length < 2147483648) :
    lineCases line = some (wantedCase line) ↔ IsCommentLine line ∨ IsCaseLine line := by
  by_cases hcomment : IsCommentLine line
  · obtain ⟨hcases, hwanted⟩ := lineCases_of_comment hcomment
    exact iff_of_true (by rw [hcases, hwanted]) (.inl hcomment)
  · rw [or_iff_right hcomment]
    constructor
    · intro h
      by_contra hcase
      exact lineCases_ne_of_not_caseLine hlen hcomment hcase h
    · exact lineCases_of_caseLine hlen hcomment

theorem wantedCase_eq_nil_iff : wantedCase line = [] ↔ IsSkipped line := by
  rw [wantedCase]
  split
  · next h => exact iff_of_true rfl h
  · next h => exact iff_of_false (List.cons_ne_nil _ _) h

end Line

/-! ## The whole file -/

theorem length_flatten_lineCases {lines : List (List Char)}
    {new : List (List (List Char × List Char))} (h : lines.mapM lineCases = some new) :
    new.flatten.length = (lines.flatMap wantedCase).length := by
  have hall := FallibleLoop.forall₂_of_mapM h
  clear h
  induction hall with
  | nil => rfl
  | cons hline _ ih =>
    rw [List.flatten_cons, List.length_append, List.flatMap_cons, List.length_append, ih,
      length_lineCases hline]

/-- As no line can make up for another one, every line has to add what it should. -/
theorem mapM_lineCases_eq_wanted_iff {lines : List (List Char)} :
    (∃ new, lines.mapM lineCases = some new ∧ new.flatten = lines.flatMap wantedCase) ↔
      ∀ line ∈ lines, lineCases line = some (wantedCase line) := by
  constructor
  · rintro ⟨new, h, hflatten⟩
    have hall := FallibleLoop.forall₂_of_mapM h
    clear h
    induction hall with
    | nil => exact fun line hline => absurd hline List.not_mem_nil
    | cons hline _ ih =>
      rw [List.flatten_cons, List.flatMap_cons] at hflatten
      obtain ⟨hhead, htail⟩ := List.append_inj hflatten (length_lineCases hline)
      rw [hhead] at hline
      exact List.forall_mem_cons.mpr ⟨hline, ih htail⟩
  · intro h
    refine ⟨lines.map wantedCase, FallibleLoop.mapM_eq_some_map h, ?_⟩
    rw [List.flatMap_def]

/-- The constructor returns the wanted cases exactly when every line before the first one that
does not fit into the buffer is a comment, or has a blank between its first and its last
character and no `NUL`, and every line from there on is blank or a comment. -/
theorem read_eq_wantedCases_iff (file : List Char) :
    PGInput.read file = some (.ofCases (wantedCases file)) ↔
      (∀ line ∈ (textLines file).takeWhile (·.length ≤ 511),
        IsCommentLine line ∨ IsCaseLine line) ∧
      ∀ line ∈ (textLines file).dropWhile (·.length ≤ 511), IsSkipped line := by
  generalize hbefore : (textLines file).takeWhile (·.length ≤ 511) = before
  generalize hafter : (textLines file).dropWhile (·.length ≤ 511) = after
  have hlines : textLines file = before ++ after := by
    rw [← hbefore, ← hafter, List.takeWhile_append_dropWhile]
  have hshort : ∀ line ∈ before, line.length < 2147483648 := by
    intro line hline
    rw [← hbefore] at hline
    have hle : line.length ≤ 511 := by simpa using List.mem_takeWhile_imp hline
    omega
  have hwanted : wantedCases file = before.flatMap wantedCase ++ after.flatMap wantedCase := by
    rw [wantedCases, hlines, List.flatMap_append]
  have hskip : after.flatMap wantedCase = [] ↔ ∀ line ∈ after, IsSkipped line := by
    rw [List.flatMap_eq_nil_iff]
    exact forall₂_congr fun line _ => wantedCase_eq_nil_iff
  have hline : (∀ line ∈ before, lineCases line = some (wantedCase line)) ↔
      ∀ line ∈ before, IsCommentLine line ∨ IsCaseLine line :=
    forall₂_congr fun line hmem => lineCases_eq_wanted_iff (hshort line hmem)
  rw [read_eq, hbefore, ← hskip, ← hline, ← mapM_lineCases_eq_wanted_iff, Option.map_eq_some_iff,
    hwanted]
  constructor
  · rintro ⟨new, hnew, hcases⟩
    have hflatten := PGInput.ofCases_injective hcases
    rw [← List.append_nil new.flatten] at hflatten
    obtain ⟨hhead, htail⟩ := List.append_inj hflatten (length_flatten_lineCases hnew)
    exact ⟨⟨new, hnew, hhead⟩, htail.symm⟩
  · rintro ⟨⟨new, hnew, hflatten⟩, hnil⟩
    exact ⟨new, hnew, by rw [hflatten, hnil, List.append_nil]⟩

/-- A line with nothing but the collective, and a blank line. -/
theorem read_misses :
    (PGInput.read "MPI_Barrier\n".toList =
        some (.ofCases [("MPI_Barrier".toList, "MPI_Barrier".toList)]) ∧
      wantedCases "MPI_Barrier\n".toList = [("MPI_Barrier".toList, [])]) ∧
    PGInput.read "MPI_Bcast -n 1\n\n".toList = none ∧
      wantedCases "MPI_Bcast -n 1\n\n".toList = [("MPI_Bcast".toList, "-n 1".toList)] := by
  rw [read_eq, read_eq]
  decide

end ReproMPI.Pgcheck
