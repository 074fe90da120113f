import Mathlib.Tactic
import ReproMPI.Lib.ClassPattern
import ReproMPI.Lib.OrderedDict
import ReproMPI.Lib.PythonText

/-!
# The annotation of a line

`parse_line` searches a line for `//@` and a keyword and reads the pairs of keys and values
behind it. The two regular expressions are sequences of repeated classes of characters.
-/

namespace ReproMPI.Benchmaker

open PythonText ClassPattern

/-! ## The regular expressions -/

/-- `[a-zA-Z0-9_]`. -/
def isWord (c : Char) : Bool := c.isAlpha || c.isDigit || c == '_'

/-- A character that stands for itself. -/
def char (c : Char) : Item Char := { cls := (· == c), quantifier := .one }

/-- `[\s\t]*`. -/
def blanks : Item Char := { cls := isSpace, quantifier := .star }

/-- `[a-zA-Z0-9_]+`. -/
def word : Item Char := { cls := isWord, quantifier := .plus }

/-- `.*`. -/
def restOfLine : Item Char := { cls := (· != '\n'), quantifier := .star }

/-- `(?P<indent>[\s\t]*)//@([\s\t]*)(?P<keyword>[a-zA-Z0-9_]+)(?P<info>.*)`. -/
def annotationPattern : List (Item Char) :=
  [blanks, char '/', char '/', char '@', blanks, word, restOfLine]

/-- `(?P<key>[a-zA-Z0-9_]+)(=?)(?P<value>[^\s]*)(?P<info>.*)`. -/
def pairPattern : List (Item Char) :=
  [word, { cls := (· == '='), quantifier := .optional },
    { cls := fun c => !isSpace c, quantifier := .star }, restOfLine]

/-! ## The function -/

/-- What `parse_line` finds in a line. -/
structure Tag where
  keyword : Str
  indent : ℕ
  data : OrderedDict Str Str
  deriving DecidableEq

/-- The loop over the pairs; every turn takes at least the key off `info`. -/
def parseInfo : ℕ → Str → OrderedDict Str Str → OrderedDict Str Str
  | 0, _, data => data
  | fuel + 1, info, data =>
    match search pairPattern info with
    | some [key, _, value, rest] => parseInfo fuel rest (data.set key value)
    | _ => data

/-- `parse_line`; `none` is the empty dictionary. -/
def parseLine (line : Str) : Option Tag :=
  match search annotationPattern line with
  | some [indent, _, _, _, _, keyword, info] =>
    some
      { keyword := keyword
        indent := indent.length
        data := parseInfo info.length info .empty }
  | _ => none

/-! ## What the loop reads -/

section Info

variable {info key value rest : Str} {data : OrderedDict Str Str} {groups : List Str}

/-- A pair: a key that is not empty, and a shorter rest. -/
theorem pair_of_search (h : search pairPattern info = some groups) :
    ∃ key eq value rest, groups = [key, eq, value, rest] ∧ key ≠ [] ∧
      rest.length < info.length := by
  obtain ⟨hmatches, hinside⟩ := search_sound h
  obtain ⟨key, _, hkey, hmatches₁, rfl⟩ := List.forall₂_cons_left_iff.mp hmatches
  obtain ⟨eq, _, -, hmatches₂, rfl⟩ := List.forall₂_cons_left_iff.mp hmatches₁
  obtain ⟨value, _, -, hmatches₃, rfl⟩ := List.forall₂_cons_left_iff.mp hmatches₂
  obtain ⟨rest, _, -, hmatches₄, rfl⟩ := List.forall₂_cons_left_iff.mp hmatches₃
  obtain rfl := List.forall₂_nil_left_iff.mp hmatches₄
  have hpos : 1 ≤ key.length := hkey.1
  have hlen := hinside.length_le
  simp only [List.flatten_cons, List.flatten_nil, List.append_nil, List.length_append] at hlen
  exact ⟨key, eq, value, rest, rfl, List.length_pos_iff.mp hpos, by omega⟩

/-- What the loop makes of the rest of a line, whatever it has for fuel. -/
inductive Pairs : Str → OrderedDict Str Str → OrderedDict Str Str → Prop
  | done {info : Str} {data : OrderedDict Str Str} (hsearch : search pairPattern info = none) :
      Pairs info data data
  | pair {info key eq value rest : Str} {data data' : OrderedDict Str Str}
      (hsearch : search pairPattern info = some [key, eq, value, rest])
      (h : Pairs rest (data.set key value) data') : Pairs info data data'

theorem search_pairPattern_nil : search pairPattern [] = none := by
  cases hsearch : search pairPattern [] with
  | none => rfl
  | some groups =>
    obtain ⟨_, _, _, _, -, -, hlt⟩ := pair_of_search hsearch
    exact absurd hlt (Nat.not_lt_zero _)

/-- The loop ends before its fuel does. -/
theorem parseInfo_pairs {fuel : ℕ} (hfuel : info.length ≤ fuel) :
    Pairs info data (parseInfo fuel info data) := by
  induction fuel generalizing info data with
  | zero =>
    obtain rfl := List.length_eq_zero_iff.mp (Nat.le_zero.mp hfuel)
    exact .done search_pairPattern_nil
  | succ fuel ih =>
    rw [parseInfo]
    cases hsearch : search pairPattern info with
    | none => exact .done hsearch
    | some groups =>
      obtain ⟨key, eq, value, rest, rfl, -, hlt⟩ := pair_of_search hsearch
      exact .pair hsearch (ih (by omega))

/-- No key is empty. -/
theorem Pairs.key_ne_nil {data' : OrderedDict Str Str} (h : Pairs info data data')
    (hdata : ∀ k ∈ data.keys, k ≠ []) {k : Str} (hk : k ∈ data'.keys) : k ≠ [] := by
  induction h with
  | done _ => exact hdata k hk
  | pair hsearch _ ih =>
    obtain ⟨_, _, _, _, hgroups, hne, -⟩ := pair_of_search hsearch
    obtain ⟨rfl, -⟩ := List.cons.inj hgroups
    refine ih (fun k hk => ?_) hk
    rcases OrderedDict.eq_or_mem_of_mem_keys_set hk with rfl | hk
    · exact hne
    · exact hdata k hk

end Info

/-! ## The lines with an annotation -/

section Annotation

variable {line : Str} {groups : List Str}

theorem char_matches_iff {c : Char} {t : Str} : (char c).Matches t ↔ t = [c] := by
  constructor
  · rintro ⟨hlen, hcls⟩
    obtain ⟨d, rfl⟩ := List.length_eq_one_iff.mp hlen
    rw [eq_of_beq (hcls d List.mem_cons_self)]
  · rintro rfl
    exact ⟨rfl, fun d hd => beq_iff_eq.mpr (List.mem_singleton.mp hd)⟩

theorem annotation_of_search (h : search annotationPattern line = some groups) :
    ∃ indent spaces keyword info,
      groups = [indent, ['/'], ['/'], ['@'], spaces, keyword, info] ∧
      blanks.Matches spaces ∧ word.Matches keyword := by
  have hmatches := (search_sound h).1
  obtain ⟨indent, _, -, hmatches₁, rfl⟩ := List.forall₂_cons_left_iff.mp hmatches
  obtain ⟨_, _, hslash, hmatches₂, rfl⟩ := List.forall₂_cons_left_iff.mp hmatches₁
  obtain ⟨_, _, hslash', hmatches₃, rfl⟩ := List.forall₂_cons_left_iff.mp hmatches₂
  obtain ⟨_, _, hat, hmatches₄, rfl⟩ := List.forall₂_cons_left_iff.mp hmatches₃
  obtain ⟨spaces, _, hspaces, hmatches₅, rfl⟩ := List.forall₂_cons_left_iff.mp hmatches₄
  obtain ⟨keyword, _, hkeyword, hmatches₆, rfl⟩ := List.forall₂_cons_left_iff.mp hmatches₅
  obtain ⟨info, _, -, hmatches₇, rfl⟩ := List.forall₂_cons_left_iff.mp hmatches₆
  obtain rfl := List.forall₂_nil_left_iff.mp hmatches₇
  obtain rfl := char_matches_iff.mp hslash
  obtain rfl := char_matches_iff.mp hslash'
  obtain rfl := char_matches_iff.mp hat
  exact ⟨indent, spaces, keyword, info, rfl, hspaces, hkeyword⟩

theorem parseLine_isSome : (parseLine line).isSome = (search annotationPattern line).isSome := by
  rw [parseLine]
  cases hsearch : search annotationPattern line with
  | none => rfl
  | some groups =>
    obtain ⟨indent, spaces, keyword, info, rfl, -⟩ := annotation_of_search hsearch
    rfl

/-- A line has an annotation exactly where `//@`, blanks and a character of a keyword follow one
another. -/
theorem parseLine_isSome_iff :
    (parseLine line).isSome = true ↔
      ∃ before spaces c after, line = before ++ "//@".toList ++ spaces ++ c :: after ∧
        (∀ d ∈ spaces, isSpace d = true) ∧ isWord c = true := by
  rw [parseLine_isSome]
  constructor
  · intro h
    obtain ⟨groups, hgroups⟩ := Option.isSome_iff_exists.mp h
    obtain ⟨-, before, after, rfl⟩ := search_sound hgroups
    obtain ⟨indent, spaces, keyword, info, rfl, hspaces, hlen, hkeyword⟩ :=
      annotation_of_search hgroups
    obtain ⟨c, rest, rfl⟩ := List.exists_cons_of_length_pos hlen
    exact ⟨before ++ indent, spaces, c, rest ++ info ++ after, by simp, hspaces.2,
      hkeyword c List.mem_cons_self⟩
  · rintro ⟨before, spaces, c, after, rfl, hspaces, hc⟩
    refine search_isSome_iff.mpr
      ⟨[[], ['/'], ['/'], ['@'], spaces, [c], []], ?_, before, after, by simp⟩
    refine .cons ⟨trivial, fun _ h => absurd h List.not_mem_nil⟩
      (.cons (char_matches_iff.mpr rfl) (.cons (char_matches_iff.mpr rfl)
      (.cons (char_matches_iff.mpr rfl) (.cons ⟨trivial, hspaces⟩
      (.cons ⟨le_rfl, fun d hd => ?_⟩ (.cons ⟨trivial, fun _ h => absurd h List.not_mem_nil⟩
      .nil))))))
    rwa [List.mem_singleton.mp hd]

/-- A key without `=` is a key without a value. -/
example : (parseLine " //@ set a=b c\n".toList).map (fun tag => (tag.indent, tag.data.items)) =
    some (1, [("a".toList, "b".toList), ("c".toList, [])]) := by
  decide +kernel

theorem key_ne_nil_of_parseLine {tag : Tag} (h : parseLine line = some tag) {k : Str}
    (hk : k ∈ tag.data.keys) : k ≠ [] := by
  rw [parseLine] at h
  split at h
  · obtain rfl := Option.some.inj h
    exact (parseInfo_pairs le_rfl).key_ne_nil (fun _ hk => absurd hk List.not_mem_nil) hk
  · cases h

end Annotation

end ReproMPI.Benchmaker
