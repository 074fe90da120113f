import Mathlib.Tactic
import ReproMPI.Lib.CString
import ReproMPI.Lib.Strtok

/-!
# Lines and words of a text

The two readers of the C++ library a text file goes through: `std::getline` on a stream and
`operator>>` into a string, repeated until it fails. A text written line by line is read back
line by line, and a line written field by field is read back field by field, whatever the
widths of the fields.
-/

namespace TextLines

open CString

/-! ## Words -/

/-- What `operator>>` takes for one string. -/
def IsWord (s : List Char) : Prop := s ≠ [] ∧ ∀ c ∈ s, isSpace c = false

theorem isWord_iff (s : List Char) :
    IsWord s ↔ s ≠ [] ∧ (s.all fun c => !isSpace c) = true := by
  rw [IsWord]
  simp only [List.all_eq_true, Bool.not_eq_true']

instance : DecidablePred IsWord := fun s => decidable_of_iff _ (isWord_iff s).symm

/-- The strings `while (iss >> token)` reads from a text. -/
def tokens (s : List Char) : List (List Char) := (s.splitOnP isSpace).filter (· ≠ [])

/-- They are the tokens between white space. -/
theorem tokens_eq_strtok (s : List Char) : tokens s = Strtok.tokens isSpace s :=
  (Strtok.tokens_eq_filter s).symm

theorem tokens_append_cons (s t : List Char) {c : Char} (hc : isSpace c = true) :
    tokens (s ++ c :: t) = tokens s ++ tokens t := by
  simp only [tokens]
  rw [List.splitOnP_append_cons _ _ hc, List.filter_append]

theorem IsWord.tokens_eq {s : List Char} (h : IsWord s) : tokens s = [s] := by
  obtain ⟨hne, hspace⟩ := h
  rw [tokens_eq_strtok, Strtok.tokens_singleton hspace hne]

/-- Padding does not change what is read. -/
theorem tokens_pad (width : ℕ) (s : List Char) : tokens (pad width s) = tokens s := by
  simp only [tokens_eq_strtok]
  rw [pad]
  generalize width - s.length = k
  induction k with
  | zero => rfl
  | succ k ih =>
    rw [List.replicate_succ, List.cons_append, Strtok.tokens_cons_sep (by decide), ih]

/-- Fields between blanks are read one by one. -/
theorem IsWord.tokens_pad_cons {s : List Char} (h : IsWord s) (width : ℕ) (t : List Char) :
    tokens (pad width s ++ ' ' :: t) = s :: tokens t := by
  rw [tokens_append_cons _ _ (by decide), tokens_pad, h.tokens_eq, List.singleton_append]

theorem IsWord.tokens_pad {s : List Char} (h : IsWord s) (width : ℕ) :
    tokens (pad width s) = [s] := by
  rw [TextLines.tokens_pad, h.tokens_eq]

/-- A digit is not white space, nor is the sign of a number. -/
theorem isWord_printInt (x : ℤ) : IsWord (printInt x) := by
  have hdigits : ∀ c ∈ Nat.toDigits 10 x.natAbs, isSpace c = false := fun c hc =>
    (isDigit_ne (isDigit_of_mem_toDigits hc)).2.2
  rw [printInt]
  split
  · refine ⟨List.cons_ne_nil _ _, fun c hc => ?_⟩
    rcases List.mem_cons.mp hc with rfl | hc
    · decide
    · exact hdigits c hc
  · exact ⟨Nat.toDigits_ne_nil, hdigits⟩

/-! ## Lines -/

/-- A text made of lines. -/
def unlines (lines : List (List Char)) : List Char := lines.flatMap fun line => line ++ ['\n']

theorem unlines_cons (line : List Char) (lines : List (List Char)) :
    unlines (line :: lines) = line ++ '\n' :: unlines lines := by
  simp only [unlines]
  rw [List.flatMap_cons, List.append_assoc, List.singleton_append]

theorem unlines_append (lines rest : List (List Char)) :
    unlines (lines ++ rest) = unlines lines ++ unlines rest :=
  List.flatMap_append

/-- A line holds no end of line. -/
def IsLine (line : List Char) : Prop := '\n' ∉ line

instance : DecidablePred IsLine := fun s => by unfold IsLine; infer_instance

/-- A line that starts with the comment sign. -/
def IsComment (line : List Char) : Prop := IsLine line ∧ line.head? = some '#'

/-- A line that does not. -/
def IsContent (line : List Char) : Prop := IsLine line ∧ line.head? ≠ some '#'

instance : DecidablePred IsComment := fun s => by unfold IsComment; infer_instance
instance : DecidablePred IsContent := fun s => by unfold IsContent; infer_instance

theorem IsLine.append {s t : List Char} (hs : IsLine s) (ht : IsLine t) : IsLine (s ++ t) :=
  fun h => (List.mem_append.mp h).elim hs ht

theorem IsLine.cons {c : Char} {s : List Char} (hc : c ≠ '\n') (hs : IsLine s) :
    IsLine (c :: s) := fun h =>
  (List.mem_cons.mp h).elim (fun heq => hc heq.symm) hs

theorem IsWord.isLine {s : List Char} (h : IsWord s) : IsLine s := fun hmem =>
  absurd (h.2 _ hmem) (by decide)

theorem isLine_printInt (x : ℤ) : IsLine (printInt x) := (isWord_printInt x).isLine

theorem IsLine.pad {s : List Char} (hs : IsLine s) (width : ℕ) : IsLine (pad width s) := by
  refine IsLine.append (fun h => ?_) hs
  exact absurd (List.eq_of_mem_replicate h) (by decide)

theorem IsComment.append {s t : List Char} (hs : IsComment s) (ht : IsLine t) :
    IsComment (s ++ t) := by
  obtain ⟨hline, hhead⟩ := hs
  exact ⟨hline.append ht, by rw [List.head?_append, hhead, Option.some_or]⟩

theorem IsContent.append {s t : List Char} (hs : IsContent s) (hne : s ≠ []) (ht : IsLine t) :
    IsContent (s ++ t) := by
  obtain ⟨hline, hhead⟩ := hs
  refine ⟨hline.append ht, ?_⟩
  rwa [List.head?_append_of_ne_nil _ hne]

/-- A padded text starts with a blank or as it did before. -/
theorem IsContent.pad {s : List Char} (hs : IsContent s) (width : ℕ) :
    IsContent (pad width s) := by
  refine ⟨hs.1.pad width, ?_⟩
  rw [CString.pad]
  cases width - s.length with
  | zero => exact hs.2
  | succ k => exact fun h => absurd (Option.some.inj h) (by decide)

theorem pad_ne_nil {s : List Char} (hs : s ≠ []) (width : ℕ) : CString.pad width s ≠ [] :=
  fun h => hs (List.append_eq_nil_iff.mp h).2

/-- An input stream: what is left to be read, and whether neither the end of the file nor an
error was met. -/
structure Stream where
  rest : List Char
  good : Bool
  deriving DecidableEq, Repr

/-- A freshly opened file. -/
def Stream.opened (file : List Char) : Stream := { rest := file, good := true }

/-- What `std::getline(infile, line)` leaves. -/
structure Getline where
  /-- The stream converts to `true` afterwards. -/
  ok : Bool
  line : List Char
  infile : Stream
  deriving DecidableEq, Repr

/-- `std::getline(infile, line)`. -/
def getline (infile : Stream) (line : List Char) : Getline :=
  if infile.good then
    match infile.rest.dropWhile (· ≠ '\n') with
    | [] =>
      -- the end of the file: an error only where nothing was read
      { ok := !infile.rest.isEmpty, line := infile.rest, infile := { rest := [], good := false } }
    | _ :: rest =>
      { ok := true
        line := infile.rest.takeWhile (· ≠ '\n')
        infile := { rest := rest, good := true } }
  else { ok := false, line := line, infile := infile }

theorem getline_length_le (infile : Stream) (line : List Char) :
    (getline infile line).infile.rest.length ≤ infile.rest.length := by
  rw [getline]
  split
  · have hdrop := length_dropWhile_le (· ≠ '\n') infile.rest
    split
    · exact Nat.zero_le _
    · next h =>
      rw [h, List.length_cons] at hdrop
      exact (Nat.le_succ _).trans hdrop
  · exact le_rfl

/-- A line read leaves less of the file. -/
theorem getline_length_lt {infile : Stream} {line : List Char}
    (hok : (getline infile line).ok = true) :
    (getline infile line).infile.rest.length < infile.rest.length := by
  rw [getline] at hok ⊢
  split at hok
  · next hgood =>
    rw [if_pos hgood]
    have hdrop := length_dropWhile_le (· ≠ '\n') infile.rest
    split at hok
    · exact List.length_pos_iff.mpr (by simpa using hok)
    · next h =>
      rw [h, List.length_cons] at hdrop
      exact hdrop
  · cases hok

theorem getline_unlines_cons {l : List Char} (hl : IsLine l) (lines : List (List Char))
    (line : List Char) :
    getline (.opened (unlines (l :: lines))) line =
      { ok := true, line := l, infile := .opened (unlines lines) } := by
  have htake : (unlines (l :: lines)).takeWhile (· ≠ '\n') = l := by
    rw [unlines_cons]
    exact takeWhile_ne_append hl _
  have hdrop : (unlines (l :: lines)).dropWhile (· ≠ '\n') = '\n' :: unlines lines := by
    rw [unlines_cons]
    exact dropWhile_ne_append hl _
  simp only [getline, Stream.opened]
  simp only [if_true, hdrop, htake]

end TextLines
