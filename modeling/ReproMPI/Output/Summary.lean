import Mathlib.Tactic
import ReproMPI.Lib.FallibleLoop
import ReproMPI.Lib.InPlaceFilter
import ReproMPI.Output.VerboseResults

/-!
# The summary of a job

`print_summary` removes the repetitions with an error code from the array of run-times, in place
and only under window synchronization, sorts what is left and prints the selected statistics
of it. The routines of GSL are parameters; of its sort it is assumed that it sorts.
-/

namespace ReproMPI.Output

open CInt

/-- The routines of GSL on the first entries of an array. -/
structure Gsl (α : Type) [LinearOrder α] where
  /-- `gsl_sort` with stride 1. -/
  sort : List α → List α
  mean : List α → α
  /-- `gsl_stats_quantile_from_sorted_data` at 0.5. -/
  median : List α → α
  variance : List α → α
  sd : List α → α
  sort_perm : ∀ l, (sort l).Perm l
  sort_sorted : ∀ l, (sort l).SortedLE

/-- The entries of `summary_methods`. -/
inductive SummaryMethod
  | mean
  | median
  | min
  | max
  | var
  | stddev
  deriving DecidableEq, Repr

def SummaryMethod.mask : SummaryMethod → BitVec 32
  | mean => 0x01
  | median => 0x02
  | min => 0x04
  | max => 0x08
  | var => 0x10
  | stddev => 0x20

def summaryMethods : List SummaryMethod := [.mean, .median, .min, .max, .var, .stddev]

/-- What the summary reads of `reprompib_options_t`. -/
structure SummaryOptions where
  printSummaryMethods : BitVec 32

/-- The statistics that are printed, in their order. -/
def selectedMethods (opts : SummaryOptions) : List SummaryMethod :=
  if 0 < opts.printSummaryMethods.toInt then
    summaryMethods.filter fun s => opts.printSummaryMethods &&& s.mask ≠ 0
  else []

variable {α : Type}

/-- A line of the summary. -/
structure SummaryRow (α : Type) where
  callIndex : ℤ
  msizeValue : ℕ
  nRep : ℤ
  nreps : ℕ
  values : List (SummaryMethod × α)

/-- Pass `i` of the loop that removes the measurements with an error code. -/
def removePass (errorcodes : List ℤ) (st : List α × ℕ) (i : ℕ) : Option (List α × ℕ) := do
  let errorcode ← errorcodes[i]?
  let st ←
    if errorcode = 0 then
      if st.2 < i then do
        let runtime ← st.1[i]?
        some (st.1.set st.2 runtime, st.2 + 1)
      else some (st.1, st.2 + 1)
    else some st
  -- the loop variable is an `int`
  let _ ← check (i + 1)
  some st

/-- The array after the loop, and `nreps`. -/
def removeInvalid (nRep : ℤ) (runtimes : List α) (errorcodes : List ℤ) : Option (List α × ℕ) :=
  (List.range nRep.toNat).foldlM (removePass errorcodes) (runtimes, 0)

section Statistics

variable [LinearOrder α]

/-- `gsl_sort` on the first `n` entries of an array. -/
def Gsl.sortFirst (G : Gsl α) (n : ℕ) (a : List α) : Option (List α) :=
  if n ≤ a.length then some (G.sort (a.take n) ++ a.drop n) else none

variable [Zero α]

/-- The value printed for a method. -/
def SummaryMethod.value (s : SummaryMethod) (G : Gsl α) (runtimes : List α) (nreps : ℕ) :
    Option α :=
  match s with
  | mean => some (G.mean (runtimes.take nreps))
  | median => some (G.median (runtimes.take nreps))
  | min => if 0 < nreps then runtimes[0]? else some 0
  | max => if 0 < nreps then runtimes[nreps - 1]? else some 0
  | var => some (if 0 < nreps then G.variance (runtimes.take nreps) else 0)
  | stddev => some (if 0 < nreps then G.sd (runtimes.take nreps) else 0)

def printValues (G : Gsl α) (opts : SummaryOptions) (runtimes : List α) (nreps : ℕ) :
    Option (List (SummaryMethod × α)) :=
  (selectedMethods opts).mapM fun s => do
    let value ← s.value G runtimes nreps
    some (s, value)

/-- `print_summary` on the root, with the arrays from `compute_runtimes`; `none` when an access
is out of bounds or the loop variable overflows. -/
def printSummary (G : Gsl α) (info : PrintInfo) (opts : SummaryOptions) (job : Job)
    (maxRuntimesSec : List α) (syncErrorcodes : List ℤ) : Option (SummaryRow α) := do
  let (runtimes, nreps) ←
    match info.procsync with
    | .win => removeInvalid job.nRep maxRuntimesSec syncErrorcodes
    | _ => if 0 ≤ job.nRep then some (maxRuntimesSec, job.nRep.toNat) else none
  let runtimes ← G.sortFirst nreps runtimes
  let values ← printValues G opts runtimes nreps
  some
    { callIndex := job.callIndex
      msizeValue := msizeValue info job
      nRep := job.nRep
      nreps := nreps
      values := values }

end Statistics

/-- The run-times whose error code is 0, in order. -/
def validRuntimes (runtimes : List α) (errorcodes : List ℤ) : List α :=
  ((runtimes.zip errorcodes).filter fun x => x.2 = 0).map Prod.fst

theorem length_validRuntimes_le (runtimes : List α) (errorcodes : List ℤ) :
    (validRuntimes runtimes errorcodes).length ≤ runtimes.length := by
  rw [validRuntimes]
  rw [List.length_map]
  refine (List.length_filter_le _ _).trans ?_
  rw [List.length_zip]
  exact Nat.min_le_left _ _

/-! ## The compaction -/

/-- The repetitions the loop keeps. -/
def isValid (errorcodes : List ℤ) (i : ℕ) : Bool := errorcodes[i]?.any fun code => code = 0

theorem removePass_eq {errorcodes : List ℤ} {i : ℕ} (hi : i < errorcodes.length)
    (hint : (i : ℤ) < intMax) (st : List α × ℕ) :
    removePass errorcodes st i = InPlaceFilter.pass (isValid errorcodes) st i := by
  have hrange : InRange ((i : ℤ) + 1) := by
    rw [intMax] at hint
    constructor <;> omega
  rw [removePass, InPlaceFilter.pass, isValid]
  rw [List.getElem?_eq_getElem hi, check_of_inRange hrange, Option.any_some]
  by_cases hzero : errorcodes[i] = 0
  · by_cases hlt : st.2 < i
    · simp [hzero, hlt]
    · simp [hzero, hlt]
  · simp [hzero]

/-- The loop leaves the run-times it keeps, and behind them what was there before. -/
theorem removeInvalid_eq {runtimes : List α} {errorcodes : List ℤ} {nRep : ℤ}
    (hruntimes : nRep ≤ runtimes.length) (hcodes : nRep ≤ errorcodes.length)
    (hint : nRep ≤ intMax) :
    removeInvalid nRep runtimes errorcodes =
      some (InPlaceFilter.compacted (isValid errorcodes) runtimes nRep.toNat) := by
  have hbound : nRep.toNat ≤ runtimes.length := by omega
  rw [removeInvalid]
  rw [← InPlaceFilter.foldlM_pass (isValid errorcodes) hbound]
  apply FallibleLoop.foldlM_congr
  intro st i hi
  have hlt := List.mem_range.mp hi
  exact removePass_eq (by omega) (by omega) st

/-- The valid run-times come first, in order; behind them is what was there before. -/
theorem removeInvalid_append {runtimes : List α} (rest : List α) {errorcodes : List ℤ} {nRep : ℤ}
    (hruntimes : (runtimes.length : ℤ) = nRep) (hcodes : (errorcodes.length : ℤ) = nRep)
    (hint : nRep ≤ intMax) :
    removeInvalid nRep (runtimes ++ rest) errorcodes =
      some (validRuntimes runtimes errorcodes ++
          (runtimes.drop (validRuntimes runtimes errorcodes).length ++ rest),
        (validRuntimes runtimes errorcodes).length) := by
  have hlen : errorcodes.length = runtimes.length := by omega
  have hn : nRep.toNat = runtimes.length := by omega
  have hle := length_validRuntimes_le runtimes errorcodes
  have hkept : InPlaceFilter.kept (isValid errorcodes) (runtimes ++ rest) runtimes.length =
      validRuntimes runtimes errorcodes := by
    rw [InPlaceFilter.kept_append le_rfl]
    exact InPlaceFilter.kept_eq_filter_zip hlen
  rw [removeInvalid_eq (by simp; omega) (by omega) hint, hn]
  rw [InPlaceFilter.compacted]
  rw [hkept, List.drop_append_of_le_length hle]

/-- The loop reads the codes of its own repetitions only. -/
theorem removeInvalid_codes_append {errorcodes : List ℤ} {nRep : ℤ}
    (hcodes : nRep ≤ errorcodes.length) (runtimes : List α) (more : List ℤ) :
    removeInvalid nRep runtimes (errorcodes ++ more) = removeInvalid nRep runtimes errorcodes := by
  simp only [removeInvalid]
  apply FallibleLoop.foldlM_congr
  intro st i hi
  have hlt := List.mem_range.mp hi
  simp only [removePass]
  rw [List.getElem?_append_left (by omega)]

/-- With more than `INT_MAX` repetitions the loop variable overflows. -/
theorem removeInvalid_overflow {nRep : ℤ} (hint : intMax < nRep) (runtimes : List α)
    (errorcodes : List ℤ) : removeInvalid nRep runtimes errorcodes = none := by
  have hover : ¬ InRange (((2147483647 : ℕ) : ℤ) + 1) := by decide
  have hmem : 2147483647 ∈ List.range nRep.toNat := by
    rw [intMax] at hint
    rw [List.mem_range]
    omega
  apply FallibleLoop.foldlM_eq_none hmem
  intro st
  rw [removePass]
  rw [check_of_not_inRange hover]
  simp

/-! ## The statistics -/

section Statistics

variable [LinearOrder α] {G : Gsl α}

theorem Gsl.sortFirst_append (v rest : List α) :
    G.sortFirst v.length (v ++ rest) = some (G.sort v ++ rest) := by
  rw [Gsl.sortFirst]
  rw [if_pos (by simp), List.take_left, List.drop_left]

theorem Gsl.length_sort (v : List α) : (G.sort v).length = v.length := (G.sort_perm v).length_eq

theorem isLeast_head? {v : List α} {x : α} (hv : v.SortedLE) (hx : v.head? = some x) :
    IsLeast {y | y ∈ v} x := by
  obtain ⟨rest, rfl⟩ := List.head?_eq_some_iff.mp hx
  refine ⟨List.mem_cons_self, ?_⟩
  intro y hy
  rcases List.mem_cons.mp hy with rfl | hy
  · exact le_rfl
  · exact List.rel_of_pairwise_cons hv.pairwise hy

theorem isGreatest_getLast? {v : List α} {x : α} (hv : v.SortedLE) (hx : v.getLast? = some x) :
    IsGreatest {y | y ∈ v} x := by
  obtain ⟨front, rfl⟩ := List.getLast?_eq_some_iff.mp hx
  refine ⟨by simp, ?_⟩
  intro y hy
  rcases List.mem_append.mp hy with hy | hy
  · exact (List.pairwise_append.mp hv.pairwise).2.2 y hy x (List.mem_singleton_self x)
  · exact (List.mem_singleton.mp hy).le

variable [Zero α]

/-- The value of a method for the sorted run-times `v`. -/
def SummaryMethod.statistic (s : SummaryMethod) (G : Gsl α) (v : List α) : α :=
  match s with
  | mean => G.mean v
  | median => G.median v
  | min => v.head?.getD 0
  | max => v.getLast?.getD 0
  | var => if v = [] then 0 else G.variance v
  | stddev => if v = [] then 0 else G.sd v

/-- What is printed depends on the first `n` entries only. -/
theorem SummaryMethod.value_eq (s : SummaryMethod) {a : List α} {n : ℕ} (h : n ≤ a.length) :
    s.value G a n = some (s.statistic G (a.take n)) := by
  rcases n.eq_zero_or_pos with rfl | hpos
  · cases s <;> rfl
  · have hlen : (a.take n).length = n := List.length_take_of_le h
    have hne : a.take n ≠ [] := List.ne_nil_of_length_pos (hlen.symm ▸ hpos)
    simp only [value, statistic]
    simp only [if_pos hpos, if_neg hne]
    cases s with
    | mean => rfl
    | median => rfl
    | min =>
      have hfirst : (a.take n).head? = a[0]? := by
        rw [List.head?_eq_getElem?, List.getElem?_take_of_lt hpos]
      simp only [hfirst, List.getElem?_eq_getElem (hpos.trans_le h), Option.getD_some]
    | max =>
      have hlast : (a.take n).getLast? = a[n - 1]? := by
        rw [List.getLast?_eq_getElem?, hlen, List.getElem?_take_of_lt (by omega)]
      have hlt : n - 1 < a.length := by omega
      simp only [hlast, List.getElem?_eq_getElem hlt, Option.getD_some]
    | var => rfl
    | stddev => rfl

theorem printValues_eq {opts : SummaryOptions} {a : List α} {n : ℕ} (h : n ≤ a.length) :
    printValues G opts a n =
      some ((selectedMethods opts).map fun s => (s, s.statistic G (a.take n))) := by
  apply FallibleLoop.mapM_eq_some_map
  intro s _
  rw [s.value_eq h]
  rfl

end Statistics

/-! ## The summary under window synchronization -/

theorem validRuntimes_ne_nil {runtimes : List α} {errorcodes : List ℤ}
    (hlen : errorcodes.length = runtimes.length) (hzero : 0 ∈ errorcodes) :
    validRuntimes runtimes errorcodes ≠ [] := by
  obtain ⟨i, hi, hcode⟩ := List.mem_iff_getElem.mp hzero
  have hmem : (runtimes[i], errorcodes[i]) ∈ runtimes.zip errorcodes := by
    rw [← List.getElem_zip (h := by simp; omega)]
    exact List.getElem_mem _
  apply List.ne_nil_of_mem
  exact List.mem_map_of_mem (List.mem_filter.mpr ⟨hmem, by simpa using hcode⟩)

/-- The summary is about the valid run-times and nothing else. -/
structure SummarizesValid [LinearOrder α] [Zero α] (G : Gsl α) (info : PrintInfo)
    (opts : SummaryOptions) (job : Job) (runtimes : List α) (errorcodes : List ℤ) : Prop where
  /-- The loop leaves the valid run-times at the front of the array, in order. -/
  compacted : ∃ a,
    removeInvalid job.nRep runtimes errorcodes =
      some (a, (validRuntimes runtimes errorcodes).length) ∧
    a.take (validRuntimes runtimes errorcodes).length = validRuntimes runtimes errorcodes
  /-- All statistics are those of one array, the sorted valid run-times. -/
  printed : ∃ sorted row, sorted.Perm (validRuntimes runtimes errorcodes) ∧ sorted.SortedLE ∧
    printSummary G info opts job runtimes errorcodes = some row ∧
    row.nreps = (validRuntimes runtimes errorcodes).length ∧
    row.values = (selectedMethods opts).map fun s => (s, s.statistic G sorted)
  least : ∀ row v, printSummary G info opts job runtimes errorcodes = some row →
    (SummaryMethod.min, v) ∈ row.values → IsLeast {x | x ∈ validRuntimes runtimes errorcodes} v
  greatest : ∀ row v, printSummary G info opts job runtimes errorcodes = some row →
    (SummaryMethod.max, v) ∈ row.values → IsGreatest {x | x ∈ validRuntimes runtimes errorcodes} v

section Window

variable [LinearOrder α] [Zero α] {G : Gsl α} {info : PrintInfo} {opts : SummaryOptions} {job : Job}
  {runtimes : List α} {errorcodes : List ℤ}

/-- The row that is printed. -/
def windowRow (G : Gsl α) (info : PrintInfo) (opts : SummaryOptions) (job : Job) (valid : List α) :
    SummaryRow α where
  callIndex := job.callIndex
  msizeValue := msizeValue info job
  nRep := job.nRep
  nreps := valid.length
  values := (selectedMethods opts).map fun s => (s, s.statistic G (G.sort valid))

theorem printSummary_window (G : Gsl α) (opts : SummaryOptions) (hwin : info.procsync = .win)
    (hruntimes : (runtimes.length : ℤ) = job.nRep) (hcodes : (errorcodes.length : ℤ) = job.nRep)
    (hint : job.nRep ≤ intMax) :
    printSummary G info opts job runtimes errorcodes =
      some (windowRow G info opts job (validRuntimes runtimes errorcodes)) := by
  have hremove := removeInvalid_append [] hruntimes hcodes hint
  rw [List.append_nil, List.append_nil] at hremove
  generalize validRuntimes runtimes errorcodes = valid at hremove ⊢
  have htake : (G.sort valid ++ runtimes.drop valid.length).take valid.length = G.sort valid := by
    rw [← G.length_sort valid, List.take_left]
  rw [printSummary, windowRow]
  rw [hwin]
  simp only [hremove, Option.bind_eq_bind, Option.bind_some, Gsl.sortFirst_append]
  rw [printValues_eq (by simp [G.length_sort]), htake]
  rfl

/-- The statistic a method has in the row. -/
theorem statistic_of_mem {s : SummaryMethod} {v : α} {l : List SummaryMethod} {sorted : List α}
    (h : (s, v) ∈ l.map fun s => (s, s.statistic G sorted)) : v = s.statistic G sorted := by
  obtain ⟨s', _, heq⟩ := List.mem_map.mp h
  obtain ⟨rfl, rfl⟩ := Prod.mk.inj heq
  rfl

/-- With at most `INT_MAX` repetitions, one of them valid, the summary is computed from exactly
the valid run-times. -/
theorem printSummary_summarizesValid (G : Gsl α) (info : PrintInfo) (opts : SummaryOptions)
    (job : Job) (runtimes : List α) (errorcodes : List ℤ) (hwin : info.procsync = .win)
    (hruntimes : (runtimes.length : ℤ) = job.nRep) (hcodes : (errorcodes.length : ℤ) = job.nRep)
    (hzero : 0 ∈ errorcodes) (hint : job.nRep ≤ intMax) :
    SummarizesValid G info opts job runtimes errorcodes := by
  have hprint := printSummary_window G opts hwin hruntimes hcodes hint
  have hlen : errorcodes.length = runtimes.length := by omega
  have hperm := G.sort_perm (validRuntimes runtimes errorcodes)
  have hsorted := G.sort_sorted (validRuntimes runtimes errorcodes)
  have hne : G.sort (validRuntimes runtimes errorcodes) ≠ [] := fun hnil =>
    validRuntimes_ne_nil hlen hzero (List.nil_perm.mp (hnil ▸ hperm))
  have hmem : {x | x ∈ G.sort (validRuntimes runtimes errorcodes)} =
      {x | x ∈ validRuntimes runtimes errorcodes} := Set.ext fun x => hperm.mem_iff
  refine ⟨?_, ?_, ?_, ?_⟩
  · have hremove := removeInvalid_append [] hruntimes hcodes hint
    rw [List.append_nil] at hremove
    exact ⟨_, hremove, List.take_left⟩
  · exact ⟨_, _, hperm, hsorted, hprint, rfl, rfl⟩
  · intro row v hrow hv
    rw [hprint] at hrow
    obtain rfl := Option.some.inj hrow
    rw [statistic_of_mem hv, ← hmem]
    apply isLeast_head? hsorted
    rw [SummaryMethod.statistic]
    simp [List.head?_eq_some_head hne]
  · intro row v hrow hv
    rw [hprint] at hrow
    obtain rfl := Option.some.inj hrow
    rw [statistic_of_mem hv, ← hmem]
    apply isGreatest_getLast? hsorted
    rw [SummaryMethod.statistic]
    simp [List.getLast?_eq_some_getLast hne]

end Window

/-- The routines of GSL on exact numbers, with a square root for squares only. -/
def Gsl.exact : Gsl ℚ where
  sort l := l.insertionSort (· ≤ ·)
  mean l := l.sum / l.length
  median l := (l.getD ((l.length - 1) / 2) 0 + l.getD (l.length / 2) 0) / 2
  variance l := (l.map fun x => (x - l.sum / l.length) ^ 2).sum / (l.length - 1)
  sd l := Rat.sqrt ((l.map fun x => (x - l.sum / l.length) ^ 2).sum / (l.length - 1))
  sort_perm l := l.perm_insertionSort (· ≤ ·)
  sort_sorted _ := List.sortedLE_insertionSort

/-- `--summary` without a list. -/
def allMethods : SummaryOptions := { printSummaryMethods := 0x3f }

theorem printSummary_summarizesValid_four :
    SummarizesValid Gsl.exact .window allMethods (.ofNRep 4) [4, 9, 3, 5] [0, 1, 0, 0] :=
  printSummary_summarizesValid _ _ _ _ _ _ rfl rfl rfl (by decide) (by decide)

/-- After `INT_MAX` repetitions the loop variable overflows. -/
theorem printSummary_overflow :
    ∃ (runtimes : List ℚ) (errorcodes : List ℤ),
      (runtimes.length : ℤ) = (Job.ofNRep 2147483648).nRep ∧
      (errorcodes.length : ℤ) = (Job.ofNRep 2147483648).nRep ∧ 0 ∈ errorcodes ∧
      ¬ SummarizesValid Gsl.exact .window allMethods (.ofNRep 2147483648) runtimes errorcodes := by
  refine ⟨List.replicate 2147483648 1, List.replicate 2147483648 0, ?_, ?_, ?_, ?_⟩
  · rw [List.length_replicate]
    rfl
  · rw [List.length_replicate]
    rfl
  · exact List.mem_replicate.mpr ⟨by decide, rfl⟩
  · intro h
    obtain ⟨a, hremove, -⟩ := h.compacted
    rw [removeInvalid_overflow (by decide)] at hremove
    cases hremove

end ReproMPI.Output
