import Mathlib.Tactic
import ReproMPI.Bench.JobInput
import ReproMPI.Lib.BatchedArray
import ReproMPI.Lib.Strtok

/-!
# Message sizes on the command line

`--msize-interval` gives the exponents of a range of powers of two, `--msizes-list` the sizes
themselves. A power is computed as an `int`, so the exponents must stay below 31. The list is
split at commas with `strtok_r` and each piece is read by `strtol`, which takes the number at
its front and ignores what follows.
-/

namespace ReproMPI.Bench

open CString BatchedArray

/-- How a parser ends without a result. -/
inductive Halt
  /-- `reprompib_print_error_and_exit`. -/
  | errorExit
  /-- The C standard does not say what happens. -/
  | undefined
  deriving DecidableEq, Repr

/-- `n_msize` and `msize_list` of the common options. -/
structure MsizeOptions where
  nMsize : ℤ
  msizeList : List (BitVec 64)
  deriving DecidableEq, Repr

/-! ## `--msize-interval` -/

/-- The suboption at the front of a text, as `getsubopt` finds it, and the text behind it. -/
structure Subopt where
  /-- The index of the suboption, `none` for an unknown one. -/
  index : Option ℕ
  /-- The text behind the equals sign, `none` where there is no such sign. -/
  value : Option (List Char)
  rest : List Char
  deriving DecidableEq, Repr

/-- `getsubopt`. -/
def getsubopt (tokens : List (List Char)) (s : List Char) : Subopt :=
  let piece := s.takeWhile (· ≠ ',')
  { index := tokens.findIdx? (· == piece.takeWhile (· ≠ '='))
    value := if '=' ∈ piece then some (piece.dropWhile (· ≠ '=')).tail else none
    rest := (s.dropWhile (· ≠ ',')).tail }

/-- `msize_interval_opts`. -/
def msizeIntervalOpts : List (List Char) := ["min".toList, "max".toList, "step".toList]

/-- The variables `min`, `max` and `step`. -/
structure Interval where
  min : ℤ := 0
  max : ℤ := 0
  step : ℤ := 1
  deriving DecidableEq, Repr

/-- The value of a suboption; `strtol` must not be called without a text. -/
def positiveArg : Option (List Char) → Except Halt ℤ
  | none => .error .undefined
  | some value =>
    match positiveLong value with
    | none => .error .errorExit
    | some x => .ok x

/-- One turn of the `while` loop. -/
def Interval.set (iv : Interval) (sub : Subopt) : Except Halt Interval :=
  match sub.index with
  | some 0 => (positiveArg sub.value).map fun min => { iv with min := min }
  | some 1 => (positiveArg sub.value).map fun max => { iv with max := max }
  | some 2 => (positiveArg sub.value).map fun step => { iv with step := step }
  | _ => .error .errorExit

theorem getsubopt_rest_length (tokens : List (List Char)) (c : Char) (s : List Char) :
    (getsubopt tokens (c :: s)).rest.length < (c :: s).length := by
  have hdrop := length_dropWhile_le (· ≠ ',') (c :: s)
  show ((c :: s).dropWhile (· ≠ ',')).tail.length < (c :: s).length
  rw [List.length_tail]
  rw [List.length_cons] at hdrop ⊢
  omega

/-- The `while` loop over the suboptions. -/
def readInterval (iv : Interval) : List Char → Except Halt Interval
  | [] => .ok iv
  | c :: s =>
    match iv.set (getsubopt msizeIntervalOpts (c :: s)) with
    | .error halt => .error halt
    | .ok iv => readInterval iv (getsubopt msizeIntervalOpts (c :: s)).rest
termination_by s => s.length
decreasing_by exact getsubopt_rest_length _ _ _

/-- `LONG_MAX`. -/
def longMax : ℤ := 9223372036854775807

/-- The value of a `long` expression whose mathematical value is `x`. -/
def checkLong (x : ℤ) : Except Halt ℤ :=
  if -longMax - 1 ≤ x ∧ x ≤ longMax then .ok x else .error .undefined

/-- `1 << i`, an `int`. -/
def shiftOne (i : ℤ) : Except Halt ℤ :=
  if 0 ≤ i ∧ i < 31 then .ok (2 ^ i.toNat) else .error .undefined

/-- The `for` loop from `i` on, with `room` elements of the list left. -/
def fillInterval (max step : ℤ) : ℕ → ℤ → Except Halt (List (BitVec 64))
  | 0, i => if i ≤ max then .error .undefined else .ok []
  | room + 1, i =>
    if i ≤ max then do
      let entry ← shiftOne i
      let next ← checkLong (i + step)
      let rest ← fillInterval max step room next
      .ok (BitVec.ofInt 64 entry :: rest)
    else .ok []

/-- `parse_msize_interval`. -/
def parseMsizeInterval (subopts : List Char) : Except Halt MsizeOptions := do
  let iv ← readInterval {} subopts
  if 0 ≤ iv.max - iv.min then do
    let total ← checkLong (iv.max - iv.min + iv.step)
    let nMsize := CInt.ofLong (total / iv.step)
    let msizeList ← fillInterval iv.max iv.step nMsize.toNat iv.min
    .ok { nMsize := nMsize, msizeList := msizeList }
  else .error .errorExit

/-- The powers of two an interval stands for. -/
def intervalSizes (min max step : ℤ) : MsizeOptions :=
  { nMsize := (max - min) / step + 1
    msizeList := (List.range ((max - min) / step + 1).toNat).map fun k : ℕ =>
      BitVec.ofNat 64 (2 ^ (min + k * step).toNat) }

/-- The last exponent of an interval. -/
def lastExponent (min max step : ℤ) : ℤ := min + (max - min) / step * step

section Fill

variable {min max step i : ℤ}

theorem checkLong_of_le {x : ℤ} (hx : 0 ≤ x) (hle : x ≤ longMax) : checkLong x = .ok x := by
  rw [checkLong]
  refine if_pos ⟨?_, hle⟩
  rw [longMax]
  omega

theorem checkLong_of_lt {x : ℤ} (h : longMax < x) : checkLong x = .error .undefined :=
  if_neg fun h' => absurd h'.2 (not_le.mpr h)

theorem shiftOne_of_le (hi : 0 ≤ i) (hle : i ≤ 30) : shiftOne i = .ok (2 ^ i.toNat) :=
  if_pos ⟨hi, by omega⟩

theorem shiftOne_of_lt (h : 30 < i) : shiftOne i = .error .undefined :=
  if_neg fun h' => by omega

theorem ofInt_pow (e : ℕ) : BitVec.ofInt 64 (2 ^ e) = BitVec.ofNat 64 (2 ^ e) := by
  rw [← BitVec.ofInt_natCast]
  push_cast
  rfl

/-- A turn of the loop stores a power and goes on. -/
theorem fillInterval_store (room : ℕ) (hi : i ≤ max) (h0 : 0 ≤ i) (h30 : i ≤ 30)
    (hstep : 0 ≤ step) (hlong : i + step ≤ longMax) :
    fillInterval max step (room + 1) i =
      (fillInterval max step room (i + step)).map (BitVec.ofNat 64 (2 ^ i.toNat) :: ·) := by
  rw [fillInterval, if_pos hi, shiftOne_of_le h0 h30, checkLong_of_le (by omega) hlong,
    ← ofInt_pow]
  rfl

theorem fillInterval_undefined (room : ℕ) (hi : i ≤ max) (h : 30 < i ∨ longMax < i + step) :
    fillInterval max step (room + 1) i = .error .undefined := by
  rw [fillInterval, if_pos hi]
  rcases le_or_gt i 30 with h30 | h30
  · rw [checkLong_of_lt (h.resolve_left (not_lt.mpr h30))]
    rw [shiftOne]
    split <;> rfl
  · rw [shiftOne_of_lt h30]
    rfl

/-- With `k` more steps to the last exponent, the loop fills the rest of the list if that
exponent can be shifted by and the index can be increased behind it. -/
theorem fillInterval_eq (k : ℕ) (hk : i + k * step ≤ max) (hk' : max < i + (k + 1) * step)
    (hstep : 0 < step) (h0 : 0 ≤ i) (hmax : max ≤ longMax) :
    fillInterval max step (k + 1) i =
      if i + k * step ≤ 30 ∧ i + k * step + step ≤ longMax then
        .ok ((List.range (k + 1)).map fun j : ℕ => BitVec.ofNat 64 (2 ^ (i + j * step).toNat))
      else .error .undefined := by
  induction k generalizing i with
  | zero =>
    rw [Nat.cast_zero, zero_mul, add_zero] at hk ⊢
    rw [Nat.cast_zero, zero_add, one_mul] at hk'
    by_cases h : i ≤ 30 ∧ i + step ≤ longMax
    · rw [if_pos h, fillInterval_store 0 hk h0 h.1 hstep.le h.2, fillInterval,
        if_neg (not_le.mpr hk')]
      show Except.ok _ = Except.ok _
      simp [List.range_succ]
    · rw [if_neg h]
      refine fillInterval_undefined 0 hk ?_
      rw [not_and_or, not_le, not_le] at h
      exact h
  | succ k ih =>
    have hlast : i + ((k + 1 : ℕ) : ℤ) * step = i + step + k * step := by
      push_cast
      ring
    have hnext : 0 ≤ (k : ℤ) * step := mul_nonneg (Int.natCast_nonneg k) hstep.le
    rw [hlast] at hk ⊢
    have hk'' : max < i + step + (k + 1) * step := by
      calc max < i + ((k + 1 : ℕ) + 1) * step := hk'
        _ = i + step + (k + 1) * step := by push_cast; ring
    have hrest := ih hk hk'' (by omega)
    rcases le_or_gt i 30 with h30 | h30
    · rw [fillInterval_store (k + 1) (by omega) h0 h30 hstep.le (by omega), hrest]
      split
      · refine congrArg Except.ok ?_
        conv_rhs =>
          rw [List.range_succ_eq_map, List.map_cons, List.map_map, Nat.cast_zero, zero_mul,
            add_zero]
        refine congrArg (BitVec.ofNat 64 (2 ^ i.toNat) :: ·) (List.map_congr_left fun j _ => ?_)
        rw [Function.comp_apply, Nat.cast_succ]
        ring_nf
      · rfl
    · rw [fillInterval_undefined (k + 1) (by omega) (.inl h30), if_neg fun h => by omega]

end Fill

/-- What the loop of the parser does for a valid interval. -/
theorem fillInterval_interval {min max step : ℤ} (hmin : 1 ≤ min) (hle : min ≤ max)
    (hmax : max ≤ longMax) (hstep : 1 ≤ step) :
    fillInterval max step ((max - min) / step + 1).toNat min =
      if lastExponent min max step ≤ 30 ∧ lastExponent min max step + step ≤ longMax then
        .ok (intervalSizes min max step).msizeList
      else .error .undefined := by
  have hdiv : 0 ≤ (max - min) / step := Int.ediv_nonneg (by omega) (by omega)
  have hcast : (((max - min) / step).toNat : ℤ) = (max - min) / step := Int.toNat_of_nonneg hdiv
  have hlow := Int.ediv_mul_le (max - min) (show step ≠ 0 by omega)
  have hhigh := Int.lt_ediv_add_one_mul_self (max - min) (show 0 < step by omega)
  have hroom : ((max - min) / step + 1).toNat = ((max - min) / step).toNat + 1 := by omega
  rw [lastExponent, intervalSizes]
  rw [hroom, fillInterval_eq _ (by rw [hcast]; omega) (by rw [hcast]; omega) (by omega)
    (by omega) hmax, hcast]

/-- For exponents from 1 to 62 the list is filled with the powers of two exactly when the last
exponent is at most 30, the largest power an `int` can hold, and no `long` overflows. -/
theorem parseMsizeInterval_powers_iff {subopts : List Char} {min max step : ℤ}
    (hread : readInterval {} subopts = .ok { min := min, max := max, step := step })
    (hmin : 1 ≤ min) (hle : min ≤ max) (hmax : max ≤ 62) (hstep : 1 ≤ step) :
    parseMsizeInterval subopts = .ok (intervalSizes min max step) ↔
      lastExponent min max step ≤ 30 ∧ max - min + step ≤ longMax ∧
        lastExponent min max step + step ≤ longMax := by
  have hlong : max ≤ longMax := hmax.trans (by decide)
  have hfill := fillInterval_interval hmin hle hlong hstep
  have hdiv : (max - min + step) / step = (max - min) / step + 1 :=
    Int.add_ediv_of_dvd_right (dvd_refl step) |>.trans (by rw [Int.ediv_self (by omega)])
  have hle62 : (max - min) / step ≤ max - min := Int.ediv_le_self _ (by omega)
  have hnonneg : 0 ≤ (max - min) / step := Int.ediv_nonneg (by omega) (by omega)
  have hcount : CInt.ofLong ((max - min) / step + 1) = (max - min) / step + 1 :=
    CInt.ofLong_of_inRange ⟨by omega, by omega⟩
  rw [parseMsizeInterval]
  rw [hread]
  show (if 0 ≤ max - min then _ else _) = _ ↔ _
  rw [if_pos (by omega)]
  rcases le_or_gt (max - min + step) longMax with htotal | htotal
  · rw [checkLong_of_le (by omega) htotal]
    show (do
      let msizeList ← fillInterval max step
        (CInt.ofLong ((max - min + step) / step)).toNat min
      (Except.ok
        { nMsize := CInt.ofLong ((max - min + step) / step)
          msizeList := msizeList } : Except Halt MsizeOptions)) = _ ↔ _
    rw [hdiv, hcount, hfill]
    split
    · next h => exact iff_of_true rfl ⟨h.1, htotal, h.2⟩
    · next h =>
      refine iff_of_false (fun h' => ?_) fun h' => h ⟨h'.1, h'.2.2⟩
      cases h'
  · rw [checkLong_of_lt htotal]
    refine iff_of_false (fun h' => ?_) fun h' => absurd h'.2.1 (not_le.mpr htotal)
    cases h'

/-! ### The text of an interval -/

/-- A suboption with its value. -/
def suboptText (name : List Char) (x : ℤ) : List Char := name ++ '=' :: printInt x

/-- `min=<min>,max=<max>,step=<step>`. -/
def intervalArg (min max step : ℤ) : List Char :=
  suboptText "min".toList min ++
    ',' :: (suboptText "max".toList max ++ ',' :: suboptText "step".toList step)

theorem positiveLong_printInt {x : ℤ} (hpos : 1 ≤ x) (hlong : x ≤ longMax) :
    positiveLong (printInt x) = some x := by
  have hrange : -9223372036854775808 ≤ x ∧ x ≤ 9223372036854775807 := by
    rw [longMax] at hlong
    omega
  rw [positiveLong, strToLong]
  simp only [readInt_printInt_nil, Option.bind_eq_bind, Option.bind_some, if_pos hrange]
  exact if_neg (by omega)

/-- The suboption in front of a comma, or of the end of the text. -/
theorem getsubopt_suboptText (tokens : List (List Char)) {name tail : List Char} (x : ℤ)
    (hname : ∀ c ∈ name, c ≠ ',' ∧ c ≠ '=') (htail : ∀ c t, tail = c :: t → c = ',') :
    getsubopt tokens (suboptText name x ++ tail) =
      { index := tokens.findIdx? (· == name), value := some (printInt x), rest := tail.tail } := by
  have hcomma : ∀ c ∈ suboptText name x, decide (c ≠ ',') = true := by
    intro c hc
    refine decide_eq_true ?_
    rintro rfl
    rcases List.mem_append.mp hc with hc | hc
    · exact (hname _ hc).1 rfl
    · rcases List.mem_cons.mp hc with hc | hc
      · exact absurd hc (by decide)
      · exact not_mem_printInt (by decide) (by decide) x hc
  have hstop : ∀ c t, tail = c :: t → decide (c ≠ ',') = false := by
    intro c t h
    simp [htail c t h]
  have hpiece : (suboptText name x ++ tail).takeWhile (· ≠ ',') = suboptText name x :=
    takeWhile_append_of_head hcomma hstop
  have hrest : (suboptText name x ++ tail).dropWhile (· ≠ ',') = tail :=
    dropWhile_append_of_head hcomma hstop
  have hequals : '=' ∉ name := fun h => (hname _ h).2 rfl
  have htake : (suboptText name x).takeWhile (· ≠ '=') = name := takeWhile_ne_append hequals _
  have hdrop : (suboptText name x).dropWhile (· ≠ '=') = '=' :: printInt x :=
    dropWhile_ne_append hequals _
  have hmem : '=' ∈ suboptText name x := List.mem_append_right _ List.mem_cons_self
  rw [getsubopt]
  simp only [hpiece, hrest, htake, hdrop, if_pos hmem, List.tail_cons]

theorem readInterval_suboptText {iv : Interval} (iv' : Interval) {name tail : List Char} {x : ℤ}
    (hname : ∀ c ∈ name, c ≠ ',' ∧ c ≠ '=') (htail : ∀ c t, tail = c :: t → c = ',')
    (hset : iv.set
      { index := msizeIntervalOpts.findIdx? (· == name), value := some (printInt x),
        rest := tail.tail } = .ok iv') :
    readInterval iv (suboptText name x ++ tail) = readInterval iv' tail.tail := by
  have hsub := getsubopt_suboptText msizeIntervalOpts x hname htail
  cases htext : suboptText name x ++ tail with
  | nil =>
    have hlen := congrArg List.length htext
    simp [suboptText] at hlen
  | cons c s =>
    rw [htext] at hsub
    rw [readInterval]
    simp only [hsub, hset]

/-- The documented form of the argument is read as it is written. -/
theorem readInterval_intervalArg {min max step : ℤ} (hmin : 1 ≤ min ∧ min ≤ longMax)
    (hmax : 1 ≤ max ∧ max ≤ longMax) (hstep : 1 ≤ step ∧ step ≤ longMax) :
    readInterval {} (intervalArg min max step) =
      .ok { min := min, max := max, step := step } := by
  have hvalue : ∀ {x : ℤ}, 1 ≤ x ∧ x ≤ longMax → positiveArg (some (printInt x)) = .ok x := by
    intro x hx
    rw [positiveArg]
    simp only [positiveLong_printInt hx.1 hx.2]
  have hcomma : ∀ s c t, ',' :: s = c :: t → c = ',' := by
    rintro s c t ⟨⟩
    rfl
  rw [intervalArg]
  rw [readInterval_suboptText { min := min } (by simp) (hcomma _)
    (by show (positiveArg (some (printInt min))).map _ = _; rw [hvalue hmin]; rfl),
    List.tail_cons,
    readInterval_suboptText { min := min, max := max } (by simp) (hcomma _)
    (by show (positiveArg (some (printInt max))).map _ = _; rw [hvalue hmax]; rfl),
    List.tail_cons, ← List.append_nil (suboptText "step".toList step),
    readInterval_suboptText { min := min, max := max, step := step } (by simp)
    (fun c t h => by cases h)
    (by show (positiveArg (some (printInt step))).map _ = _; rw [hvalue hstep]; rfl)]
  rw [List.tail_nil, readInterval]

/-- `--msize-interval=min=1,max=30,step=2`. -/
theorem parseMsizeInterval_to_30 :
    parseMsizeInterval (intervalArg 1 30 2) = .ok (intervalSizes 1 30 2) :=
  (parseMsizeInterval_powers_iff
    (readInterval_intervalArg (by decide) (by decide) (by decide)) (by decide) (by decide)
    (by decide) (by decide)).mpr (by decide)

/-- `--msize-interval=min=31,max=31,step=1`: the one size is not an `int`. -/
theorem parseMsizeInterval_31 :
    intervalArg 31 31 1 = "min=31,max=31,step=1".toList ∧
      intervalSizes 31 31 1 = { nMsize := 1, msizeList := [2147483648] } ∧
      parseMsizeInterval (intervalArg 31 31 1) = .error .undefined := by
  refine ⟨by decide, by decide, ?_⟩
  rw [parseMsizeInterval]
  rw [readInterval_intervalArg (by decide) (by decide) (by decide)]
  rfl

end ReproMPI.Bench
