import Mathlib.Tactic

/-!
# Text in Python

Which characters are white space, and the lines that reading a text file gives: every end of
line becomes a line feed, and a line ends behind a line feed or with the file.
-/

namespace PythonText

/-- A string. -/
abbrev Str := List Char

/-- `\s` of a pattern, and `str.isspace`. -/
def isSpace (c : Char) : Bool :=
  let n := c.toNat
  decide (9 ≤ n ∧ n ≤ 13 ∨ 28 ≤ n ∧ n ≤ 32 ∨ n = 0x85 ∨ n = 0xa0 ∨ n = 0x1680 ∨
    0x2000 ≤ n ∧ n ≤ 0x200a ∨ n = 0x2028 ∨ n = 0x2029 ∨ n = 0x202f ∨ n = 0x205f ∨ n = 0x3000)

/-- `"\r\n"` and `"\r"` are read as `"\n"`. -/
def universalNewlines : Str → Str
  | [] => []
  | '\r' :: '\n' :: s => '\n' :: universalNewlines s
  | '\r' :: s => '\n' :: universalNewlines s
  | c :: s => c :: universalNewlines s

/-- A text cut behind every line feed. -/
def splitLines : Str → List Str
  | [] => []
  | c :: s =>
    if c = '\n' then [c] :: splitLines s
    else
      match splitLines s with
      | [] => [[c]]
      | line :: lines => (c :: line) :: lines

/-- `for line in f`, for a file with this text. -/
def fileLines (text : Str) : List Str := splitLines (universalNewlines text)

theorem universalNewlines_of_notMem {s : Str} (h : '\r' ∉ s) : universalNewlines s = s := by
  induction s with
  | nil => rfl
  | cons c s ih =>
    obtain ⟨hc, hs⟩ := not_or.mp (List.mem_cons.not.mp h)
    rw [universalNewlines.eq_4 c s (fun _ hc' => absurd hc'.symm hc) fun hc' => hc hc'.symm,
      ih hs]

/-- No character is lost or moved. -/
theorem flatten_splitLines (s : Str) : (splitLines s).flatten = s := by
  induction s with
  | nil => rfl
  | cons c s ih =>
    rw [splitLines]
    split
    · rw [List.flatten_cons, ih, List.singleton_append]
    · cases hlines : splitLines s with
      | nil =>
        rw [hlines] at ih
        simp [← ih]
      | cons line lines =>
        rw [hlines] at ih
        simp [← ih]

/-- The lines of a file without carriage returns are its text. -/
theorem flatten_fileLines {text : Str} (h : '\r' ∉ text) : (fileLines text).flatten = text := by
  rw [fileLines, flatten_splitLines, universalNewlines_of_notMem h]

end PythonText
