import Mathlib.Tactic
import ReproMPI.Lib.TextLines
import ReproMPI.Pgcheck.DataTable

/-!
# The parser of the measurement files

`CSVParser::parse_file` reads a file line by line. A line that starts with `#` is a comment.
The first other line is the header; it is dropped, and the line after it is taken as the
first row without a look at its first character. The words of a row are stored under four
fixed column names; a fifth word has no name.
-/

namespace ReproMPI.Pgcheck

open TextLines

/-- `col_names`. -/
def colNames : List String := ["test", "nrep", "count", "runtime_sec"]

/-- The loop `row[col_names[col_idx++]] = token`; `none` is an access beyond the names. -/
def readCells : ℕ → List (List Char) → Option TableRow
  | _, [] => some []
  | colIdx, token :: tokens => do
    let name ← colNames[colIdx]?
    let row ← readCells (colIdx + 1) tokens
    some ((name, token) :: row)

/-- The variables of the loop. -/
structure ParseState where
  first : Bool
  line : List Char
  infile : Stream
  deriving DecidableEq, Repr

/-- The variables after a `std::getline`. -/
def ParseState.getline (st : ParseState) : ParseState :=
  let next := TextLines.getline st.infile st.line
  { st with line := next.line, infile := next.infile }

/-- The statement `if (first)`. -/
def ParseState.skipHeader (st : ParseState) : ParseState :=
  if st.first then { st.getline with first := false } else st

/-- The body of the loop up to `add_row`: the row, and the variables after it. -/
def readRow (st : ParseState) : Option (TableRow × ParseState) :=
  if st.line.head? = some '#' then some ([], st)
  else (readCells 0 (tokens st.skipHeader.line)).map fun row => (row, st.skipHeader)

theorem readRow_length_le {st st' : ParseState} {row : TableRow}
    (h : readRow st = some (row, st')) : st'.infile.rest.length ≤ st.infile.rest.length := by
  rw [readRow] at h
  split at h
  · obtain ⟨-, rfl⟩ := Prod.mk.inj (Option.some.inj h)
    exact le_rfl
  · obtain ⟨_, -, heq⟩ := Option.map_eq_some_iff.mp h
    obtain ⟨-, rfl⟩ := Prod.mk.inj heq
    rw [ParseState.skipHeader]
    split
    · exact getline_length_le _ _
    · exact le_rfl

/-- The loop of `parse_file`. -/
def parseLoop (st : ParseState) (table : PGDataTable) : Option PGDataTable :=
  if _hok : (getline st.infile st.line).ok = true then
    match _hrow : readRow st.getline with
    | none => none
    | some (row, st') => parseLoop st' (table.addRow row)
  else some table
termination_by st.infile.rest.length
decreasing_by exact (readRow_length_le _hrow).trans_lt (getline_length_lt _hok)

/-- `CSVParser::parse_file` on the content of the file; `none` where it leaves the column
names. -/
def parseFile (file : List Char) : Option PGDataTable :=
  parseLoop { first := true, line := [], infile := .opened file }
    (PGDataTable.new.setColumnNames colNames)

/-! ## The loop on a file of lines -/

/-- One pass of the loop. -/
theorem parseLoop_eq (st : ParseState) (table : PGDataTable) :
    parseLoop st table =
      if (getline st.infile st.line).ok = true then
        (readRow st.getline).bind fun r => parseLoop r.2 (table.addRow r.1)
      else some table := by
  rw [parseLoop]
  split
  · split
    · next hrow => rw [hrow, Option.bind_none]
    · next hrow => rw [hrow, Option.bind_some]
  · rfl

/-- The loop, with these lines left in the file. -/
def parseLines (first : Bool) (lines : List (List Char)) (table : PGDataTable) :
    Option PGDataTable :=
  parseLoop { first := first, line := [], infile := .opened (unlines lines) } table

theorem getline_opened_cons (first : Bool) (line : List Char) {l : List Char} (hl : IsLine l)
    (lines : List (List Char)) :
    ParseState.getline
        { first := first, line := line, infile := .opened (unlines (l :: lines)) } =
      { first := first, line := l, infile := .opened (unlines lines) } := by
  rw [ParseState.getline]
  simp only [getline_unlines_cons hl]

/-- The content of `line` before the loop is lost. -/
theorem parseLoop_opened (first : Bool) (line : List Char) (lines : List (List Char))
    (table : PGDataTable) :
    parseLoop { first := first, line := line, infile := .opened (unlines lines) } table =
      parseLines first lines table := by
  have hline : getline (.opened (unlines lines)) line =
      getline (.opened (unlines lines)) [] := by
    simp only [getline, Stream.opened]
    rfl
  simp only [parseLines]
  rw [parseLoop_eq, parseLoop_eq]
  simp only [ParseState.getline]
  simp only [hline]

theorem parseLines_nil (first : Bool) (table : PGDataTable) :
    parseLines first [] table = some table := by
  rw [parseLines]
  rw [parseLoop_eq]
  exact if_neg Bool.false_ne_true

theorem parseLines_cons (first : Bool) {l : List Char} (hl : IsLine l)
    (lines : List (List Char)) (table : PGDataTable) :
    parseLines first (l :: lines) table =
      (readRow { first := first, line := l, infile := .opened (unlines lines) }).bind
        fun r => parseLoop r.2 (table.addRow r.1) := by
  rw [parseLines]
  rw [parseLoop_eq, getline_opened_cons first [] hl, if_pos]
  rw [getline_unlines_cons hl]

theorem readRow_content {st : ParseState} (h : st.line.head? ≠ some '#') {st' : ParseState}
    (hskip : st.skipHeader = st') :
    readRow st = (readCells 0 (tokens st'.line)).map fun row => (row, st') := by
  rw [readRow]
  rw [if_neg h, hskip]

theorem parseLines_comment {l : List Char} (hl : IsComment l) (first : Bool)
    (lines : List (List Char)) (table : PGDataTable) :
    parseLines first (l :: lines) table = parseLines first lines table := by
  rw [parseLines_cons first hl.1]
  rw [readRow]
  rw [if_pos hl.2, Option.bind_some, parseLoop_opened]
  rfl

theorem parseLines_comments {comments : List (List Char)} (h : ∀ l ∈ comments, IsComment l)
    (first : Bool) (lines : List (List Char)) (table : PGDataTable) :
    parseLines first (comments ++ lines) table = parseLines first lines table := by
  induction comments with
  | nil => rfl
  | cons l comments ih =>
    rw [List.cons_append, parseLines_comment (h l List.mem_cons_self),
      ih fun l' hl' => h l' (List.mem_cons_of_mem _ hl')]

/-- A row after the header line has been seen. -/
theorem parseLines_content {l : List Char} (hl : IsContent l) (lines : List (List Char))
    (table : PGDataTable) :
    parseLines false (l :: lines) table =
      (readCells 0 (tokens l)).bind fun row => parseLines false lines (table.addRow row) := by
  have hskip : ParseState.skipHeader
      { first := false, line := l, infile := .opened (unlines lines) } =
        { first := false, line := l, infile := .opened (unlines lines) } := rfl
  rw [parseLines_cons false hl.1, readRow_content hl.2 hskip]
  cases readCells 0 (tokens l) with
  | none => rfl
  | some row => exact parseLoop_opened false l lines _

/-- The header, and the line after it: it is a row even where it starts with `#`. -/
theorem parseLines_header {header l : List Char} (hheader : IsContent header) (hl : IsLine l)
    (lines : List (List Char)) (table : PGDataTable) :
    parseLines true (header :: l :: lines) table =
      (readCells 0 (tokens l)).bind fun row => parseLines false lines (table.addRow row) := by
  have hskip : ParseState.skipHeader
      { first := true, line := header, infile := .opened (unlines (l :: lines)) } =
        { first := false, line := l, infile := .opened (unlines lines) } := by
    rw [ParseState.skipHeader]
    rw [if_pos rfl, getline_opened_cons true header hl]
  rw [parseLines_cons true hheader.1, readRow_content hheader.2 hskip]
  cases readCells 0 (tokens l) with
  | none => rfl
  | some row => exact parseLoop_opened false l lines _

/-! ## Files of records -/

/-- The line reads as this record. -/
def IsRecordLine (line : List Char) (r : Record) : Prop :=
  IsContent line ∧ tokens line = [r.test, r.nrep, r.count, r.runtimeSec]

theorem IsRecordLine.readCells_eq {line : List Char} {r : Record} (h : IsRecordLine line r) :
    readCells 0 (tokens line) = some r.row := by
  rw [h.2]
  rfl

/-- More words than columns. -/
theorem readCells_eq_none {words : List (List Char)} {colIdx : ℕ} (hidx : colIdx ≤ 4)
    (h : 4 < colIdx + words.length) : readCells colIdx words = none := by
  induction words generalizing colIdx with
  | nil =>
    rw [List.length_nil] at h
    omega
  | cons token words ih =>
    rw [List.length_cons] at h
    rw [readCells]
    -- the word has a name and too many words are left, or the names are used up
    rcases hidx.lt_or_eq with hlt | rfl
    · rw [ih hlt (by omega)]
      cases colNames[colIdx]? <;> rfl
    · rfl

theorem parseLines_records {lines post : List (List Char)} {records : List Record}
    (h : List.Forall₂ IsRecordLine lines records) {table : PGDataTable} {before : List Record}
    (hholds : Holds table before) (hpost : ∀ l ∈ post, IsComment l) :
    ∃ t, parseLines false (lines ++ post) table = some t ∧ Holds t (before ++ records) := by
  induction h generalizing table before with
  | nil =>
    refine ⟨table, ?_, by rwa [List.append_nil]⟩
    rw [List.nil_append, ← List.append_nil post, parseLines_comments hpost, parseLines_nil]
  | @cons l r lines records hl _ ih =>
    obtain ⟨t, hparse, ht⟩ := ih (hholds.addRow r)
    refine ⟨t, ?_, by rwa [List.append_assoc] at ht⟩
    rw [List.cons_append, parseLines_content hl.1, hl.readCells_eq, Option.bind_some, hparse]

/-- A file of comments, a header, at least one record and comments is read as the records. -/
theorem exists_parseFile {pre lines post : List (List Char)} {header : List Char}
    {records : List Record} (hpre : ∀ l ∈ pre, IsComment l) (hheader : IsContent header)
    (h : List.Forall₂ IsRecordLine lines records) (hne : records ≠ [])
    (hpost : ∀ l ∈ post, IsComment l) :
    ∃ t, parseFile (unlines (pre ++ header :: (lines ++ post))) = some t ∧ Holds t records := by
  have hnew : Holds (PGDataTable.new.setColumnNames colNames) [] := ⟨rfl, rfl, rfl, rfl⟩
  cases h with
  | nil => exact absurd rfl hne
  | @cons l r lines records hl hlines =>
    obtain ⟨t, hparse, ht⟩ := parseLines_records hlines (hnew.addRow r) hpost
    refine ⟨t, ?_, ht⟩
    show parseLines true (pre ++ header :: l :: (lines ++ post)) _ = _
    rw [parseLines_comments hpre, parseLines_header hheader hl.1.1, hl.readCells_eq,
      Option.bind_some, hparse]

/-- The line after the header has too many words. -/
theorem parseFile_eq_none {pre rest : List (List Char)} {header l : List Char}
    (hpre : ∀ l ∈ pre, IsComment l) (hheader : IsContent header) (hl : IsLine l)
    (hwords : 4 < (tokens l).length) :
    parseFile (unlines (pre ++ header :: l :: rest)) = none := by
  show parseLines true (pre ++ header :: l :: rest) _ = _
  rw [parseLines_comments hpre, parseLines_header hheader hl,
    readCells_eq_none (Nat.zero_le 4) (by omega), Option.bind_none]

/-- A file without any row. -/
theorem parseFile_comments {comments : List (List Char)} (h : ∀ l ∈ comments, IsComment l) :
    parseFile (unlines comments) = some (PGDataTable.new.setColumnNames colNames) := by
  show parseLines true comments _ = _
  rw [← List.append_nil comments, parseLines_comments h, parseLines_nil]

end ReproMPI.Pgcheck
