import Mathlib.Data.List.DropRight
import Mathlib.Tactic
import ReproMPI.Lib.TextLines

/-!
# Lines through a buffer

`ins.getline(buf, n)` copies a line into a buffer of `n` characters. A line that does not fit
makes the stream fail, so a loop over the lines of a file ends at the first one of `n` or more
characters. `trim` removes the white space at both ends of a line.
-/

namespace LineBuffer

open CString TextLines

/-! ## The lines of a text -/

/-- The lines of a text; the last one needs no end of line. -/
def textLines : List Char → List (List Char)
  | [] => []
  | c :: s =>
    if c = '\n' then [] :: textLines s
    else
      match textLines s with
      | [] => [[c]]
      | line :: lines => (c :: line) :: lines

theorem textLines_append {l : List Char} (hl : IsLine l) (s : List Char) :
    textLines (l ++ '\n' :: s) = l :: textLines s := by
  induction l with
  | nil => rfl
  | cons c l ih =>
    have hc : c ≠ '\n' := fun heq => hl (heq ▸ List.mem_cons_self)
    rw [List.cons_append, textLines, if_neg hc, ih fun h => hl (List.mem_cons_of_mem _ h)]

theorem textLines_singleton {l : List Char} (hl : IsLine l) (hne : l ≠ []) :
    textLines l = [l] := by
  induction l with
  | nil => exact absurd rfl hne
  | cons c l ih =>
    have hc : c ≠ '\n' := fun heq => hl (heq ▸ List.mem_cons_self)
    rw [textLines, if_neg hc]
    cases l with
    | nil => rfl
    | cons d l => rw [ih (fun h => hl (List.mem_cons_of_mem _ h)) (List.cons_ne_nil _ _)]

/-- A text has an end of line or is the rest of one line. -/
theorem isLine_or_exists_append (s : List Char) :
    IsLine s ∨ ∃ l t, IsLine l ∧ s = l ++ '\n' :: t := by
  by_cases hs : IsLine s
  · exact .inl hs
  · obtain ⟨l, t, rfl, hl⟩ := List.eq_append_cons_of_mem (not_not.mp hs)
    exact .inr ⟨l, t, hl, rfl⟩

/-! ## The reader -/

/-- `infile.getline(buf, n)`; `line` is what stands in the buffer. The end of the file is
looked for first, then the end of the line, then the end of the buffer. -/
def getlineBuffer (n : ℕ) (infile : Stream) : Getline :=
  if infile.good then
    let stored := (infile.rest.takeWhile (· ≠ '\n')).take (n - 1)
    match infile.rest.drop stored.length with
    | [] => { ok := !stored.isEmpty, line := stored, infile := { rest := [], good := false } }
    | c :: rest =>
      if c = '\n' then
        { ok := true, line := stored, infile := { rest := rest, good := true } }
      else { ok := false, line := stored, infile := { rest := c :: rest, good := false } }
  else { ok := false, line := [], infile := infile }

/-- A line read leaves less of the file. -/
theorem getlineBuffer_length_lt {n : ℕ} {infile : Stream}
    (hok : (getlineBuffer n infile).ok = true) :
    (getlineBuffer n infile).infile.rest.length < infile.rest.length := by
  rw [getlineBuffer] at hok ⊢
  split at hok
  · next hgood =>
    rw [if_pos hgood]
    dsimp only at hok ⊢
    generalize hstored : (infile.rest.takeWhile (· ≠ '\n')).take (n - 1) = stored at hok ⊢
    have hlen : (infile.rest.drop stored.length).length ≤ infile.rest.length := by
      rw [List.length_drop]
      exact Nat.sub_le _ _
    split at hok
    · next hdrop =>
      have hpos : 0 < stored.length := by
        rw [List.length_pos_iff]
        simpa using hok
      have hle : stored.length ≤ infile.rest.length := by
        rw [← hstored]
        exact ((List.take_sublist _ _).trans (List.takeWhile_sublist _)).length_le
      show 0 < infile.rest.length
      omega
    · next c rest hdrop =>
      rw [hdrop, List.length_cons] at hlen
      split at hok
      · next hc =>
        rw [if_pos hc]
        exact hlen
      · cases hok
  · cases hok

/-- `while (infile.getline(buf, n))`, with a body that can fail. -/
def forLines {σ : Type*} (n : ℕ) (body : σ → List Char → Option σ) (s : σ)
    (infile : Stream) : Option σ :=
  if _hok : (getlineBuffer n infile).ok = true then
    match body s (getlineBuffer n infile).line with
    | none => none
    | some s' => forLines n body s' (getlineBuffer n infile).infile
  else some s
termination_by infile.rest.length
decreasing_by exact getlineBuffer_length_lt _hok

section Reading

variable {n : ℕ} {l : List Char}

theorem getlineBuffer_nil : (getlineBuffer n (.opened [])).ok = false := by
  rw [getlineBuffer, Stream.opened]
  simp

theorem takeWhile_line (hl : IsLine l) : l.takeWhile (· ≠ '\n') = l :=
  List.takeWhile_eq_self_iff.mpr (forall_mem_ne hl)

/-- A line that fits is read, and the reader stands behind its end. -/
theorem getlineBuffer_append (hl : IsLine l) (hlen : l.length ≤ n - 1) (s : List Char) :
    getlineBuffer n (.opened (l ++ '\n' :: s)) =
      { ok := true, line := l, infile := .opened s } := by
  simp only [getlineBuffer, Stream.opened]
  simp only [if_true, takeWhile_ne_append hl, List.take_of_length_le hlen, List.drop_left]

theorem getlineBuffer_last (hl : IsLine l) (hlen : l.length ≤ n - 1) (hne : l ≠ []) :
    getlineBuffer n (.opened l) =
      { ok := true, line := l, infile := { rest := [], good := false } } := by
  have hempty : l.isEmpty = false := by simpa using hne
  rw [getlineBuffer, Stream.opened]
  simp only [if_true, takeWhile_line hl, List.take_of_length_le hlen, List.drop_length, hempty,
    Bool.not_false]

/-- A line that does not fit makes the reader fail, whatever follows it. -/
theorem getlineBuffer_of_lt (hlen : n - 1 < l.length) {s : List Char} (hl : IsLine l)
    (hs : s = l ∨ ∃ t, s = l ++ '\n' :: t) : (getlineBuffer n (.opened s)).ok = false := by
  have htake : (s.takeWhile (· ≠ '\n')).take (n - 1) = l.take (n - 1) := by
    rcases hs with rfl | ⟨t, rfl⟩
    · rw [takeWhile_line hl]
    · rw [takeWhile_ne_append hl]
  have hstored : (l.take (n - 1)).length = n - 1 := List.length_take_of_le hlen.le
  obtain ⟨c, rest, hdrop, hc⟩ : ∃ c rest, s.drop (n - 1) = c :: rest ∧ c ≠ '\n' := by
    have hget : l.drop (n - 1) = l[n - 1] :: l.drop (n - 1 + 1) := List.drop_eq_getElem_cons hlen
    have hc : l[n - 1] ≠ '\n' := fun heq => hl (heq ▸ List.getElem_mem hlen)
    rcases hs with rfl | ⟨t, rfl⟩
    · exact ⟨_, _, hget, hc⟩
    · refine ⟨l[n - 1], l.drop (n - 1 + 1) ++ '\n' :: t, ?_, hc⟩
      rw [List.drop_append_of_le_length hlen.le, hget, List.cons_append]
  rw [getlineBuffer, Stream.opened]
  simp only [if_true, htake, hstored, hdrop, if_neg hc]

end Reading

/-! ## The loop -/

section Loop

variable {σ : Type*} {n : ℕ} {body : σ → List Char → Option σ}

theorem forLines_of_not_ok {infile : Stream} (h : (getlineBuffer n infile).ok = false) (s : σ) :
    forLines n body s infile = some s := by
  rw [forLines, dif_neg (by simp [h])]

theorem forLines_of_ok {infile infile' : Stream} {line : List Char}
    (h : getlineBuffer n infile = { ok := true, line := line, infile := infile' }) (s : σ) :
    forLines n body s infile = (body s line).bind fun s' => forLines n body s' infile' := by
  rw [forLines, dif_pos (by rw [h])]
  rw [h]
  cases body s line with
  | none => rfl
  | some s' => rfl

theorem takeWhile_fits_cons {line : List Char} {lines : List (List Char)}
    (h : line.length ≤ n - 1) :
    (line :: lines).takeWhile (·.length ≤ n - 1) =
      line :: lines.takeWhile (·.length ≤ n - 1) :=
  List.takeWhile_cons_of_pos (by simpa using h)

theorem takeWhile_fits_nil {line : List Char} {lines : List (List Char)}
    (h : ¬ line.length ≤ n - 1) : (line :: lines).takeWhile (·.length ≤ n - 1) = [] :=
  List.takeWhile_cons_of_neg (by simpa using h)

/-- The loop runs over the lines up to the first one that does not fit. -/
theorem forLines_opened (file : List Char) (s : σ) :
    forLines n body s (.opened file) =
      ((textLines file).takeWhile (·.length ≤ n - 1)).foldlM body s := by
  induction hk : file.length using Nat.strong_induction_on generalizing file s with
  | _ k ih =>
    rcases isLine_or_exists_append file with hline | ⟨l, t, hl, rfl⟩
    · rcases eq_or_ne file [] with rfl | hne
      · exact forLines_of_not_ok getlineBuffer_nil s
      · rw [textLines_singleton hline hne]
        by_cases hlen : file.length ≤ n - 1
        · have hend : ∀ s' : σ, forLines n body s' { rest := [], good := false } = some s' :=
            forLines_of_not_ok rfl
          rw [forLines_of_ok (getlineBuffer_last hline hlen hne),
            takeWhile_fits_cons hlen, List.foldlM_cons]
          simp only [hend]
          rfl
        · rw [forLines_of_not_ok (getlineBuffer_of_lt (not_le.mp hlen) hline (.inl rfl)),
            takeWhile_fits_nil hlen]
          rfl
    · rw [textLines_append hl]
      by_cases hlen : l.length ≤ n - 1
      · have hlt : t.length < k := by
          rw [← hk, List.length_append, List.length_cons]
          omega
        rw [forLines_of_ok (getlineBuffer_append hl hlen t),
          takeWhile_fits_cons hlen, List.foldlM_cons]
        exact congrArg (Option.bind (body s l)) (funext fun s' => ih _ hlt t s' rfl)
      · rw [forLines_of_not_ok (getlineBuffer_of_lt (not_le.mp hlen) hl (.inr ⟨t, rfl⟩)),
          takeWhile_fits_nil hlen]
        rfl

end Loop

/-! ## Trimming -/

/-- `trim`: `find_first_not_of` and `find_last_not_of` with the blanks of the C locale. -/
def trim (s : List Char) : List Char := (s.dropWhile isSpace).rdropWhile isSpace

/-- Only blanks are removed. -/
theorem mem_trim {s : List Char} {c : Char} (hc : isSpace c = false) : c ∈ trim s ↔ c ∈ s := by
  have hdrop : ∀ u : List Char, c ∈ u.dropWhile isSpace ↔ c ∈ u := by
    intro u
    refine ⟨fun h => (List.dropWhile_sublist _).subset h, fun h => ?_⟩
    rw [← List.takeWhile_append_dropWhile (p := isSpace) (l := u)] at h
    rcases List.mem_append.mp h with h | h
    · exact absurd (List.mem_takeWhile_imp h) (by simp [hc])
    · exact h
  rw [trim, List.rdropWhile]
  rw [List.mem_reverse, hdrop, List.mem_reverse, hdrop]

theorem trim_head {s t : List Char} {c : Char} (h : trim s = c :: t) : isSpace c = false := by
  have hfront : (trim s) <+: s.dropWhile isSpace := List.rdropWhile_prefix _ _
  rw [h] at hfront
  obtain ⟨u, hu⟩ := hfront
  have hne : s.dropWhile isSpace ≠ [] := by
    rw [← hu]
    exact List.cons_ne_nil _ _
  have hhead := List.head_dropWhile_not isSpace hne
  simpa [← hu] using hhead

theorem trim_last {s t : List Char} {c : Char} (h : trim s = t ++ [c]) : isSpace c = false := by
  have hne : (s.dropWhile isSpace).rdropWhile isSpace ≠ [] := by
    show trim s ≠ []
    rw [h]
    exact List.append_ne_nil_of_right_ne_nil _ (List.cons_ne_nil _ _)
  have hlast := List.rdropWhile_last_not isSpace _ hne
  have heq : ((s.dropWhile isSpace).rdropWhile isSpace).getLast hne = c := by
    show (trim s).getLast hne = c
    simp only [h, List.getLast_concat]
  rw [heq] at hlast
  simpa using hlast

theorem trim_sublist (s : List Char) : (trim s).Sublist s :=
  (List.rdropWhile_prefix _ _).sublist.trans (List.dropWhile_sublist _)

theorem trim_eq_nil_iff {s : List Char} : trim s = [] ↔ ∀ c ∈ s, isSpace c = true := by
  constructor
  · intro h c hc
    by_contra hspace
    have hmem := (mem_trim (Bool.eq_false_iff.mpr hspace)).mpr hc
    rw [h] at hmem
    exact List.not_mem_nil hmem
  · intro h
    cases htrim : trim s with
    | nil => rfl
    | cons c t =>
      have hmem : c ∈ s := (trim_sublist s).subset (htrim ▸ List.mem_cons_self)
      have hspace := trim_head htrim
      rw [h c hmem] at hspace
      cases hspace

/-- The first character that is not a blank stays in front. -/
theorem head?_trim (s : List Char) : (trim s).head? = (s.dropWhile isSpace).head? := by
  obtain ⟨t, ht⟩ : trim s <+: s.dropWhile isSpace := List.rdropWhile_prefix _ _
  cases htrim : trim s with
  | nil =>
    rw [List.dropWhile_eq_nil_iff.mpr (trim_eq_nil_iff.mp htrim)]
  | cons c u =>
    rw [← ht, htrim]
    rfl

theorem length_trim_le (s : List Char) : (trim s).length ≤ s.length :=
  (trim_sublist s).length_le

end LineBuffer
