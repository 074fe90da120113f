import Mathlib.Tactic
import ReproMPI.Lib.LineBuffer
import ReproMPI.Lib.Strtok
import ReproMPI.Pgcheck.Input

/-!
# The argument vector of a call

`compose_argv_vector` splits the options of a test case at the blanks and puts the program
name in front of them and the parameters of the tuned library behind them. The loop of
`string_split` looks for the next delimiter from a position that a loop of its own may have
moved over a run of them.
-/

namespace ReproMPI.Pgcheck

open CString LineBuffer

/-! ## The functions of the source -/

/-- `s.find(delimiter_str, pos)` for a delimiter of one character; `none` is `npos`. -/
def findFrom (s : List Char) (delimiter : Char) (pos : ℕ) : Option ℕ :=
  ((s.drop pos).idxOf? delimiter).map (pos + ·)

/-- `s.substr(pos)`; `none` is `std::out_of_range`. -/
def substrFrom (s : List Char) (pos : ℕ) : Option (List Char) :=
  if pos ≤ s.length then some (s.drop pos) else none

/-- The inner loop: `pos_start` once `next_pos` has passed over the delimiters. -/
def skipDelimiters (s : List Char) (delimiter : Char) (posStart nextPos : ℕ) : ℕ :=
  if _h : nextPos < s.length then
    if s[nextPos] ≠ delimiter then nextPos
    else skipDelimiters s delimiter posStart (nextPos + 1)
  else posStart
termination_by s.length - nextPos

/-- The loop of `string_split` for at most `fuel` passes. -/
def splitLoop (s : List Char) (delimiter : Char) :
    ℕ → ℕ → List (List Char) → Option (List (List Char))
  | 0, _, _ => none
  | fuel + 1, posStart, res =>
    match findFrom s delimiter posStart with
    | some posEnd => do
      let token ← substr s posStart (posEnd - posStart)
      splitLoop s delimiter fuel (skipDelimiters s delimiter (posEnd + 1) (posEnd + 1))
        (res ++ [token])
    | none => do
      let token ← substrFrom s posStart
      some (res ++ [token])

/-- `string_split`. -/
def stringSplit (fuel : ℕ) (s : List Char) (delimiter : Char) : Option (List (List Char)) :=
  splitLoop s delimiter fuel 0 []

/-- `compose_argv_vector`: what stands in `argv_vector` afterwards. -/
def composeArgvVector (fuel : ℕ) (progName reprompiParams : List Char)
    (pgtunelibParams argvVector : List (List Char)) : Option (List (List Char)) := do
  let reprompiParamsParts ← stringSplit fuel (trim reprompiParams) ' '
  some (argvVector ++ [progName] ++ reprompiParamsParts ++ pgtunelibParams)

/-! ## One pass -/

section Pass

variable {s w u : List Char} {d : Char} {pos : ℕ}

theorem findFrom_eq_none (h : d ∉ s.drop pos) : findFrom s d pos = none := by
  rw [findFrom, List.idxOf?_eq_none_iff.mpr h]
  rfl

/-- The delimiter behind a text without one. -/
theorem findFrom_eq_some (hdrop : s.drop pos = w ++ d :: u) (hw : d ∉ w) :
    findFrom s d pos = some (pos + w.length) := by
  have hidx : (w ++ d :: u).idxOf? d = some w.length := by
    rw [List.idxOf?_eq_some_iff]
    refine ⟨by simp, by simp, fun j hj => ?_⟩
    rw [List.getElem_append_left hj]
    exact fun heq => hw (heq ▸ List.getElem_mem hj)
  rw [findFrom, hdrop, hidx]
  rfl

theorem length_of_drop (hdrop : s.drop pos = w ++ d :: u) :
    pos + w.length + 1 + u.length = s.length := by
  have hlen := congrArg List.length hdrop
  rw [List.length_drop, List.length_append, List.length_cons] at hlen
  omega

theorem drop_of_drop (hdrop : s.drop pos = w ++ d :: u) :
    s.drop (pos + w.length + 1) = u := by
  rw [Nat.add_assoc, ← List.drop_drop, hdrop, ← List.drop_drop, List.drop_left]
  rfl

/-- A position moved over a run of delimiters, or left where it was when nothing else
follows. -/
theorem skipDelimiters_eq (hdrop : s.drop pos = u) {start : ℕ} :
    skipDelimiters s d start pos =
      if u.dropWhile (· == d) = [] then start
      else pos + (u.takeWhile (· == d)).length := by
  induction u generalizing pos with
  | nil =>
    have hlen : s.length ≤ pos := List.drop_eq_nil_iff.mp hdrop
    rw [skipDelimiters, dif_neg (by omega)]
    rfl
  | cons c u ih =>
    have hlt : pos < s.length := by
      by_contra hge
      rw [List.drop_eq_nil_of_le (not_lt.mp hge)] at hdrop
      cases hdrop
    have hget := List.drop_eq_getElem_cons hlt
    obtain ⟨hc, hu⟩ := List.cons.inj (hget.symm.trans hdrop)
    rw [skipDelimiters, dif_pos hlt, hc]
    by_cases hd : c = d
    · rw [if_neg (not_not.mpr hd), ih hu, List.dropWhile_cons_of_pos (by simpa using hd),
        List.takeWhile_cons_of_pos (by simpa using hd), List.length_cons]
      split
      · rfl
      · omega
    · rw [if_pos hd, List.dropWhile_cons_of_neg (by simpa using hd),
        List.takeWhile_cons_of_neg (by simpa using hd), if_neg (List.cons_ne_nil _ _)]
      rfl

theorem skipDelimiters_le_length (hdrop : s.drop pos = u) (hpos : pos ≤ s.length) :
    pos ≤ skipDelimiters s d pos pos ∧ skipDelimiters s d pos pos ≤ s.length := by
  have hlen := congrArg List.length hdrop
  rw [List.length_drop] at hlen
  have htake : (u.takeWhile (· == d)).length ≤ u.length := (List.takeWhile_sublist _).length_le
  rw [skipDelimiters_eq hdrop]
  split
  · omega
  · omega

theorem drop_skipDelimiters (hdrop : s.drop pos = u) (hu : u.dropWhile (· == d) ≠ []) :
    s.drop (skipDelimiters s d pos pos) = u.dropWhile (· == d) := by
  have hsplit := List.takeWhile_append_dropWhile (p := (· == d)) (l := u)
  calc s.drop (skipDelimiters s d pos pos)
      = u.drop (u.takeWhile (· == d)).length := by
        rw [skipDelimiters_eq hdrop, if_neg hu, ← List.drop_drop, hdrop]
    _ = (u.takeWhile (· == d) ++ u.dropWhile (· == d)).drop (u.takeWhile (· == d)).length := by
        rw [hsplit]
    _ = u.dropWhile (· == d) := List.drop_left

/-- The last pass takes what is left. -/
theorem splitLoop_of_notMem (hpos : pos ≤ s.length) (h : d ∉ s.drop pos) (fuel : ℕ)
    (res : List (List Char)) :
    splitLoop s d (fuel + 1) pos res = some (res ++ [s.drop pos]) := by
  rw [splitLoop, findFrom_eq_none h]
  simp only [substrFrom, if_pos hpos, Option.bind_eq_bind, Option.bind_some]

/-- Every other pass takes the text up to the next delimiter. -/
theorem splitLoop_of_mem (hdrop : s.drop pos = w ++ d :: u) (hw : d ∉ w) (fuel : ℕ)
    (res : List (List Char)) :
    splitLoop s d (fuel + 1) pos res =
      splitLoop s d fuel
        (skipDelimiters s d (pos + w.length + 1) (pos + w.length + 1)) (res ++ [w]) := by
  have hlen := length_of_drop hdrop
  have htoken : substr s pos (pos + w.length - pos) = some w := by
    rw [substr, if_pos (by omega), hdrop, Nat.add_sub_cancel_left, List.take_left]
  rw [splitLoop, findFrom_eq_some hdrop hw]
  simp only [htoken, Option.bind_eq_bind, Option.bind_some]

end Pass

/-! ## The loop -/

/-- The position moves on with every pass, so the loop ends on every text. -/
theorem splitLoop_isSome {s : List Char} {d : Char} {pos fuel : ℕ} (hpos : pos ≤ s.length)
    (hfuel : s.length < pos + fuel) (res : List (List Char)) :
    ∃ parts, splitLoop s d fuel pos res = some parts := by
  induction fuel generalizing pos res with
  | zero => omega
  | succ fuel ih =>
    by_cases hmem : d ∈ s.drop pos
    · obtain ⟨w, u, hdrop, hw⟩ := List.eq_append_cons_of_mem hmem
      have hlen := length_of_drop hdrop
      have hnext := skipDelimiters_le_length (d := d) (drop_of_drop hdrop) (by omega)
      rw [splitLoop_of_mem hdrop hw]
      exact ih hnext.2 (by omega) _
    · exact ⟨_, splitLoop_of_notMem hpos hmem fuel res⟩

theorem stringSplit_isSome (s : List Char) (d : Char) {fuel : ℕ} (hfuel : s.length < fuel) :
    ∃ parts, stringSplit fuel s d = some parts :=
  splitLoop_isSome (Nat.zero_le _) (by omega) _

section Ends

variable {d : Char} {w u : List Char}

/-- A text that does not end with a delimiter has something behind each run of them. -/
theorem dropWhile_ne_nil_of_getLast? (h : (w ++ d :: u).getLast? ≠ some d) :
    u.dropWhile (· == d) ≠ [] := by
  intro hnil
  refine h ?_
  have hall : ∀ c ∈ d :: u, c = d := by
    intro c hc
    rcases List.mem_cons.mp hc with rfl | hc
    · rfl
    · simpa using List.dropWhile_eq_nil_iff.mp hnil c hc
  rw [List.getLast?_append_of_ne_nil _ (List.cons_ne_nil _ _),
    List.getLast?_eq_getLast_of_ne_nil (List.cons_ne_nil _ _), hall _ (List.getLast_mem _)]

/-- What is behind the run ends as the text does. -/
theorem getLast?_dropWhile (h : u.dropWhile (· == d) ≠ []) :
    (u.dropWhile (· == d)).getLast? = (w ++ d :: u).getLast? := by
  obtain ⟨v, hv⟩ := List.dropWhile_suffix (· == d) (l := u)
  rw [List.getLast?_append_of_ne_nil _ (List.cons_ne_nil _ _)]
  conv_rhs => rw [← hv, ← List.cons_append, List.getLast?_append_of_ne_nil _ h]

theorem head?_dropWhile_ne (u : List Char) : (u.dropWhile (· == d)).head? ≠ some d := by
  intro hhead
  have hfirst := List.head?_dropWhile_not (· == d) u
  rw [hhead] at hfirst
  simp at hfirst

end Ends

/-- A text that neither starts nor ends with a delimiter, cut into its tokens. The next token
starts behind a whole run of delimiters, and there is one because the text does not end in the
run. -/
theorem splitLoop_eq_tokens {s : List Char} {d : Char} {pos fuel : ℕ}
    (hne : s.drop pos ≠ []) (hhead : (s.drop pos).head? ≠ some d)
    (hlast : (s.drop pos).getLast? ≠ some d) (hfuel : s.length < pos + fuel)
    (res : List (List Char)) :
    splitLoop s d fuel pos res = some (res ++ Strtok.tokens (· == d) (s.drop pos)) := by
  induction fuel generalizing pos res with
  | zero => exact absurd (List.drop_eq_nil_of_le (by omega)) hne
  | succ fuel ih =>
    have hpos : pos ≤ s.length := by
      by_contra hlt
      exact hne (List.drop_eq_nil_of_le (by omega))
    by_cases hmem : d ∈ s.drop pos
    · obtain ⟨w, u, hdrop, hw⟩ := List.eq_append_cons_of_mem hmem
      have hword : ∀ c ∈ w, (c == d) = false := fun c hc =>
        beq_eq_false_iff_ne.mpr fun heq => hw (heq ▸ hc)
      have hwne : w ≠ [] := by
        rintro rfl
        rw [hdrop] at hhead
        exact hhead rfl
      rw [hdrop] at hlast
      have hrest := dropWhile_ne_nil_of_getLast? hlast
      have hlen := length_of_drop hdrop
      have hnext := drop_skipDelimiters (drop_of_drop hdrop) hrest
      have hle := skipDelimiters_le_length (d := d) (drop_of_drop hdrop) (by omega)
      rw [splitLoop_of_mem hdrop hw, ih (by rwa [hnext]) ?_ ?_ (by omega), hnext,
        Strtok.tokens_dropWhile, hdrop, Strtok.tokens_append_sep hword hwne (by simp),
        List.append_assoc, List.singleton_append]
      · rw [hnext]
        exact head?_dropWhile_ne u
      · rwa [hnext, getLast?_dropWhile hrest]
    · have hword : ∀ c ∈ s.drop pos, (c == d) = false := fun c hc =>
        beq_eq_false_iff_ne.mpr fun heq => hmem (heq ▸ hc)
      rw [splitLoop_of_notMem hpos hmem, Strtok.tokens_singleton hword hne]

/-! ## The argument vector -/

theorem isSpace_blank : isSpace ' ' = true := by decide

/-- The trimmed options are split at the blanks. -/
theorem stringSplit_trim {params : List Char} (h : ∃ c ∈ params, isSpace c = false) {fuel : ℕ}
    (hfuel : params.length < fuel) :
    stringSplit fuel (trim params) ' ' = some (Strtok.tokens (· == ' ') (trim params)) := by
  have hne : trim params ≠ [] := by
    obtain ⟨c, hc, hspace⟩ := h
    exact List.ne_nil_of_mem ((mem_trim hspace).mpr hc)
  have hlen := length_trim_le params
  have hdrop : (trim params).drop 0 = trim params := List.drop_zero
  rw [stringSplit, splitLoop_eq_tokens (by rwa [hdrop]) (fun hhead => ?_) (fun hlast => ?_)
    (by omega) [], hdrop, List.nil_append]
  · obtain ⟨t, ht⟩ := List.head?_eq_some_iff.mp hhead
    have hspace := trim_head ht
    rw [isSpace_blank] at hspace
    cases hspace
  · obtain ⟨t, ht⟩ := List.getLast?_eq_some_iff.mp hlast
    have hspace := trim_last ht
    rw [isSpace_blank] at hspace
    cases hspace

/-- The program name, the words of the trimmed options and the parameters of the library; and
`string_split` ends on every text. -/
theorem composeArgvVector_eq (progName reprompiParams : List Char)
    (pgtunelibParams argvVector : List (List Char))
    (hparams : ∃ c ∈ reprompiParams, isSpace c = false) :
    (∀ fuel, reprompiParams.length < fuel →
      composeArgvVector fuel progName reprompiParams pgtunelibParams argvVector =
        some (argvVector ++ [progName] ++
          ((trim reprompiParams).splitOnP (· == ' ')).filter (· ≠ []) ++ pgtunelibParams)) ∧
    ∀ (s : List Char) (delimiter : Char) (fuel : ℕ), s.length < fuel →
      ∃ parts, stringSplit fuel s delimiter = some parts := by
  refine ⟨fun fuel hfuel => ?_, fun s d fuel hfuel => stringSplit_isSome s d hfuel⟩
  simp only [composeArgvVector, stringSplit_trim hparams hfuel, Option.bind_eq_bind,
    Option.bind_some, Strtok.tokens_eq_filter]

/-- Runs of blanks and a tab between the options. -/
theorem composeArgvVector_eq_sample :
    composeArgvVector 20 ['p'] " -a   -b\t7  ".toList ["--q".toList] [] =
      some ([] ++ [['p']] ++
        ((trim " -a   -b\t7  ".toList).splitOnP (· == ' ')).filter (· ≠ []) ++
        ["--q".toList]) :=
  (composeArgvVector_eq ['p'] " -a   -b\t7  ".toList ["--q".toList] []
    ⟨'a', by decide, by decide⟩).1 20 (by decide)

end ReproMPI.Pgcheck
