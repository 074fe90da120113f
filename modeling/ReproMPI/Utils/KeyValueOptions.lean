import Mathlib.Tactic
import ReproMPI.Lib.Strtok
import ReproMPI.Utils.KeyEnumeration

/-!
# Key-value options

`parse_keyvalue_list` splits the argument of `--params` at the commas and each piece at the
colons, by two `strtok_r` scans with a saved position each, and adds the pairs to the
dictionary of global parameters. A key that is there already ends the program.
-/

namespace ReproMPI.KeyValueStore

open Chaining

/-! ## The scans -/

def comma : BitVec 8 := 44

def isComma (c : BitVec 8) : Bool := c == comma

/-- How the parser ends: with a dictionary, or with the error exit after that dictionary. -/
inductive Parsed
  | done (dict : Dictionary)
  | exited (dict : Dictionary) (error : String)

section Scans

variable {p : CString × CString} {pairs : List (CString × CString)}

end Scans

/-! ## What the parser does to the dictionary -/

section Adding

variable {d : Dictionary} {p : CString × CString} {pairs : List (CString × CString)}

end Adding

end ReproMPI.KeyValueStore
