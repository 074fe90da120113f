import Mathlib.Tactic
import ReproMPI.Lib.CInt

/-!
# Numbers in text

The decimal conversions of the C library, on lists of characters: `readInt` is the prefix
`strtol` accepts in base ten, `printInt` what `%d` writes, `pad` the minimum field width of
a conversion. What was printed is read back, whatever blanks stand before it.
-/

namespace CString

/-- `isspace` in the C locale. -/
def isSpace (c : Char) : Bool :=
  c == ' ' || c == '\t' || c == '\n' || c == '\x0b' || c == '\x0c' || c == '\x0d'

/-- The value of the digits at the front, and the characters after them. -/
def readDigits (s : List Char) : Option (ℕ × List Char) :=
  match s.takeWhile Char.isDigit with
  | [] => none
  | digits => some (Nat.ofDigitChars 10 digits 0, s.dropWhile Char.isDigit)

/-- An optional sign and digits. -/
def readSigned : List Char → Option (ℤ × List Char)
  | '-' :: s => (readDigits s).map fun r => (-(r.1 : ℤ), r.2)
  | '+' :: s => (readDigits s).map fun r => ((r.1 : ℤ), r.2)
  | s => (readDigits s).map fun r => ((r.1 : ℤ), r.2)

/-- The number `strtol(s, &end, 10)` finds, before it is brought into the range of the
type, and the characters from `end` on; `none` where `s` holds no number. -/
def readInt (s : List Char) : Option (ℤ × List Char) :=
  readSigned (s.dropWhile isSpace)

/-- `%d`. -/
def printInt (x : ℤ) : List Char :=
  if x < 0 then '-' :: Nat.toDigits 10 x.natAbs else Nat.toDigits 10 x.natAbs

/-- A text in a field of minimum width `width`, on the right: `%<width>s`. -/
def pad (width : ℕ) (s : List Char) : List Char :=
  List.replicate (width - s.length) ' ' ++ s

/-- `std::stoi`: `none` stands for its exceptions. -/
def stoi (s : List Char) : Option ℤ := do
  let (x, _) ← readInt s
  CInt.check x

/-- What is left of a text once a number ended there. -/
def EndsNumber (s : List Char) : Prop := ∀ c t, s = c :: t → c.isDigit = false

theorem endsNumber_nil : EndsNumber [] := by
  rintro c t ⟨⟩

theorem dropWhile_of_head {p : Char → Bool} {s : List Char}
    (h : ∀ c t, s = c :: t → p c = false) : s.dropWhile p = s := by
  cases s with
  | nil => rfl
  | cons c s => exact List.dropWhile_cons_of_neg (by simp [h c s rfl])

theorem takeWhile_of_head {p : Char → Bool} {s : List Char}
    (h : ∀ c t, s = c :: t → p c = false) : s.takeWhile p = [] := by
  cases s with
  | nil => rfl
  | cons c s => exact List.takeWhile_cons_of_neg (by simp [h c s rfl])

/-! ### A text up to the first character of some kind -/

theorem takeWhile_append_of_head {p : Char → Bool} {u s : List Char}
    (hu : ∀ c ∈ u, p c = true) (hs : ∀ c t, s = c :: t → p c = false) :
    (u ++ s).takeWhile p = u := by
  rw [List.takeWhile_append_of_pos hu, takeWhile_of_head hs, List.append_nil]

theorem dropWhile_append_of_head {p : Char → Bool} {u s : List Char}
    (hu : ∀ c ∈ u, p c = true) (hs : ∀ c t, s = c :: t → p c = false) :
    (u ++ s).dropWhile p = s := by
  rw [List.dropWhile_append_of_pos hu, dropWhile_of_head hs]

theorem forall_mem_ne {sep : Char} {u : List Char} (h : sep ∉ u) :
    ∀ c ∈ u, decide (c ≠ sep) = true := fun _ hc => decide_eq_true fun heq => h (heq ▸ hc)

theorem head_eq_sep (sep : Char) (s : List Char) :
    ∀ c t, sep :: s = c :: t → decide (c ≠ sep) = false := by
  rintro c t ⟨⟩
  exact decide_eq_false fun h => h rfl

/-- The text in front of a separator. -/
theorem takeWhile_ne_append {sep : Char} {u : List Char} (h : sep ∉ u) (s : List Char) :
    (u ++ sep :: s).takeWhile (· ≠ sep) = u :=
  takeWhile_append_of_head (forall_mem_ne h) (head_eq_sep sep s)

/-- The separator and what follows it. -/
theorem dropWhile_ne_append {sep : Char} {u : List Char} (h : sep ∉ u) (s : List Char) :
    (u ++ sep :: s).dropWhile (· ≠ sep) = sep :: s :=
  dropWhile_append_of_head (forall_mem_ne h) (head_eq_sep sep s)

/-! ## Progress of a reader -/

theorem length_dropWhile_le (p : Char → Bool) (s : List Char) :
    (s.dropWhile p).length ≤ s.length :=
  (List.dropWhile_sublist p).length_le

theorem readDigits_length {s t : List Char} {n : ℕ} (h : readDigits s = some (n, t)) :
    t.length < s.length := by
  rw [readDigits] at h
  split at h
  · cases h
  · next hne =>
    obtain ⟨-, rfl⟩ := Prod.mk.inj (Option.some.inj h)
    have happend := congrArg List.length (List.takeWhile_append_dropWhile (p := Char.isDigit)
      (l := s))
    have hpos : 0 < (s.takeWhile Char.isDigit).length :=
      List.length_pos_iff.mpr fun hnil => hne hnil
    rw [List.length_append] at happend
    omega

theorem readSigned_length {s t : List Char} {x : ℤ} (h : readSigned s = some (x, t)) :
    t.length < s.length := by
  simp only [readSigned] at h
  split at h
  all_goals
    obtain ⟨⟨n, u⟩, hread, heq⟩ := Option.map_eq_some_iff.mp h
    obtain ⟨-, rfl⟩ := Prod.mk.inj heq
    have hlt := readDigits_length hread
  · exact Nat.lt_succ_of_lt hlt
  · exact Nat.lt_succ_of_lt hlt
  · exact hlt

theorem readInt_length {s t : List Char} {x : ℤ} (h : readInt s = some (x, t)) :
    t.length < s.length :=
  (readSigned_length h).trans_le (length_dropWhile_le _ _)

/-! ## Reading back what was printed -/

theorem isDigit_of_mem_toDigits {n : ℕ} {c : Char} (h : c ∈ Nat.toDigits 10 n) :
    c.isDigit = true :=
  Nat.isDigit_of_mem_toDigits (by decide) (by decide) h

theorem readDigits_toDigits (n : ℕ) {s : List Char} (hs : EndsNumber s) :
    readDigits (Nat.toDigits 10 n ++ s) = some (n, s) := by
  have hdigits : ∀ c ∈ Nat.toDigits 10 n, c.isDigit = true := fun c h =>
    isDigit_of_mem_toDigits h
  have htake : (Nat.toDigits 10 n ++ s).takeWhile Char.isDigit = Nat.toDigits 10 n :=
    takeWhile_append_of_head hdigits hs
  have hdrop : (Nat.toDigits 10 n ++ s).dropWhile Char.isDigit = s :=
    dropWhile_append_of_head hdigits hs
  rw [readDigits]
  rw [htake, hdrop]
  split
  · next hnil => exact absurd hnil Nat.toDigits_ne_nil
  · next => rw [Nat.ofDigitChars_ten_toDigits]

/-- A printed natural number starts with a digit. -/
theorem toDigits_eq_cons (n : ℕ) :
    ∃ c s, Nat.toDigits 10 n = c :: s ∧ c.isDigit = true := by
  obtain ⟨c, s, hcons⟩ := List.exists_cons_of_ne_nil (Nat.toDigits_ne_nil (n := n) (b := 10))
  refine ⟨c, s, hcons, isDigit_of_mem_toDigits (n := n) ?_⟩
  rw [hcons]
  exact List.mem_cons_self

theorem isDigit_ne {c : Char} (h : c.isDigit = true) :
    c ≠ '-' ∧ c ≠ '+' ∧ isSpace c = false := by
  refine ⟨?_, ?_, ?_⟩
  · rintro rfl
    exact absurd h (by decide)
  · rintro rfl
    exact absurd h (by decide)
  · cases hspace : isSpace c with
    | false => rfl
    | true =>
      simp only [isSpace, Bool.or_eq_true, beq_iff_eq] at hspace
      rcases hspace with ((((rfl | rfl) | rfl) | rfl) | rfl) | rfl <;> exact absurd h (by decide)

theorem readSigned_printInt (x : ℤ) {s : List Char} (hs : EndsNumber s) :
    readSigned (printInt x ++ s) = some (x, s) := by
  rw [printInt]
  split
  · next hneg =>
    rw [List.cons_append]
    show (readDigits (Nat.toDigits 10 x.natAbs ++ s)).map _ = _
    rw [readDigits_toDigits _ hs]
    have habs : -(x.natAbs : ℤ) = x := by omega
    rw [Option.map_some, habs]
  · next hpos =>
    obtain ⟨c, t, hcons, hc⟩ := toDigits_eq_cons x.natAbs
    obtain ⟨hminus, hplus, -⟩ := isDigit_ne hc
    have habs : (x.natAbs : ℤ) = x := by omega
    have hread := readDigits_toDigits x.natAbs hs
    rw [hcons, List.cons_append] at hread ⊢
    rw [readSigned.eq_3 _ (by rintro u ⟨⟩; exact hminus rfl) (by rintro u ⟨⟩; exact hplus rfl)]
    rw [hread, Option.map_some, habs]

/-- The first character of a printed number is not white space. -/
theorem printInt_head (x : ℤ) (s : List Char) :
    ∀ c t, printInt x ++ s = c :: t → isSpace c = false := by
  intro c t h
  rw [printInt] at h
  split at h
  · obtain ⟨rfl, -⟩ := List.cons_eq_cons.mp h
    decide
  · obtain ⟨d, u, hcons, hd⟩ := toDigits_eq_cons x.natAbs
    rw [hcons] at h
    obtain ⟨rfl, -⟩ := List.cons_eq_cons.mp h
    exact (isDigit_ne hd).2.2

/-- A printed number is read back, whatever blanks stand before it and whatever follows. -/
theorem readInt_printInt {blanks s : List Char} (x : ℤ) (hblanks : ∀ c ∈ blanks, isSpace c = true)
    (hs : EndsNumber s) : readInt (blanks ++ (printInt x ++ s)) = some (x, s) := by
  rw [readInt]
  rw [dropWhile_append_of_head hblanks (printInt_head x s),
    readSigned_printInt x hs]

theorem readInt_printInt_nil (x : ℤ) : readInt (printInt x) = some (x, []) := by
  have hread : readInt ([] ++ (printInt x ++ [])) = some (x, []) :=
    readInt_printInt x (by simp) endsNumber_nil
  rwa [List.nil_append, List.append_nil] at hread

theorem printInt_injective : Function.Injective printInt := by
  intro x y h
  have hread := readInt_printInt_nil x
  rw [h, readInt_printInt_nil] at hread
  exact (Prod.mk.inj (Option.some.inj hread)).1.symm

/-- A printed number has digits and a sign only. -/
theorem not_mem_printInt {c : Char} (hsign : c ≠ '-') (hdigit : c.isDigit = false) (x : ℤ) :
    c ∉ printInt x := by
  have hdigits : c ∉ Nat.toDigits 10 x.natAbs := fun h => by
    rw [isDigit_of_mem_toDigits h] at hdigit
    cases hdigit
  rw [printInt]
  split
  · exact List.not_mem_cons_of_ne_of_not_mem hsign hdigits
  · exact hdigits

end CString
