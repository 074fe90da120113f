import Mathlib.Tactic
import ReproMPI.Lib.CInt
import ReproMPI.Lib.FallibleLoop
import ReproMPI.Lib.LineBuffer

/-!
# What the tuned library offers

The configuration file of PGMPI has a line for every algorithm of every collective, with four
columns between semicolons. `PGTuneLibInterface` collects the module of every collective, which
is the one of its first line, and the names of its algorithms.

A line with more columns than there are names is an access outside of the vector of the names.
-/

namespace ReproMPI.Pgcheck

open CString TextLines LineBuffer FallibleLoop

/-- `PGTuneLibInterface`: the module of a collective and the algorithms of this module. -/
structure PGTuneLibInterface where
  mpi2module : List Char → Option (List Char × List (List Char))

namespace PGTuneLibInterface

/-- `col_names` of the constructor. -/
def colNames : List String := ["cliname", "mpiname", "algname", "rooted"]

/-- The variables of the loop over the characters of a line; a column that was not set is an
empty text. -/
structure LineState where
  row : String → List Char
  colIdx : ℕ
  token : List Char

/-- `row[col_names[col_idx]] = token`. -/
def LineState.setColumn (st : LineState) : Option (String → List Char) := do
  let name ← colNames[st.colIdx]?
  some (Function.update st.row name st.token)

/-- The body of the loop over the characters. -/
def LineState.next (st : LineState) (c : Char) : Option LineState :=
  if c = ';' then do
    let row ← st.setColumn
    some { row := row, colIdx := st.colIdx + 1, token := [] }
  else some { st with token := st.token ++ [c] }

/-- The row of a line, whose length is an `int`. -/
def readLine (line : List Char) : Option (String → List Char) := do
  let lineLength := CInt.ofLong line.length
  let st ← (line.take lineLength.toNat).foldlM LineState.next
    { row := fun _ => [], colIdx := 0, token := [] }
  st.setColumn

/-- The body of the loop over the lines. -/
def addLine (self : PGTuneLibInterface) (line : List Char) : Option PGTuneLibInterface := do
  let row ← readLine line
  let entry :=
    match self.mpi2module (row "mpiname") with
    | none => (row "cliname", [row "algname"])
    | some (cliname, algnames) => (cliname, algnames ++ [row "algname"])
  some { mpi2module := Function.update self.mpi2module (row "mpiname") (some entry) }

/-- The constructor, on the content of the configuration file. -/
def create (pgmpiInfoStr : List Char) : Option PGTuneLibInterface :=
  (textLines pgmpiInfoStr).foldlM addLine { mpi2module := fun _ => none }

/-- `get_module_name_for_mpi_collectives`. -/
def getModuleNameForMpiCollectives (self : PGTuneLibInterface) (mpiCollName : List Char) :
    List Char :=
  ((self.mpi2module mpiCollName).map Prod.fst).getD []

/-- `get_available_implementations_for_mpi_collectives`. -/
def getAvailableImplementationsForMpiCollectives (self : PGTuneLibInterface)
    (mpiCollName : List Char) : List (List Char) :=
  ((self.mpi2module mpiCollName).map Prod.snd).getD []

/-! ## Files of the documented form -/

/-- A line of the configuration file. -/
structure Entry where
  cliname : List Char
  mpiname : List Char
  algname : List Char
  rooted : List Char
  deriving DecidableEq

namespace Entry

/-- The text of the line. -/
def line (e : Entry) : List Char :=
  e.cliname ++ ';' :: (e.mpiname ++ ';' :: (e.algname ++ ';' :: e.rooted))

end Entry

section Tokens

variable {w rest : List Char} {st : LineState}

end Tokens

section Lines

variable {e : Entry} {self : PGTuneLibInterface} {entries : List Entry}

end Lines

end PGTuneLibInterface

end ReproMPI.Pgcheck
