import Mathlib.Tactic
import ReproMPI.Clocks.PingPong
import ReproMPI.Clocks.RoundTrip

/-!
# The ping-pong offset

The client of `PingpongClockOffsetAlg::measure_offset` takes the difference of its clock and the
reference's in every exchange, sorts a copy of the differences and looks for the median among
them. For an even number of exchanges the largest difference is left out of the copy, so that
the median is one of the differences.
-/

namespace ReproMPI.Clocks.PingpongAlg

open Output PingPong

/-- The routines of GSL that the client calls. -/
structure GslMedian (α : Type) [LinearOrder α] extends Gsl α where
  /-- `gsl_stats_median_from_sorted_data`. -/
  medianFromSorted : List α → α
  median_odd : ∀ (l : List α) (h : l.length % 2 = 1), medianFromSorted l = l[(l.length - 1) / 2]

/-- What the client learns in an exchange: the time stamp of the reference and its own clock
afterwards. -/
structure Exchange (α : Type) where
  masterTime : α
  localTime : α
  deriving DecidableEq, Repr

variable {α : Type} [LinearOrder α]

/-- `median`, of one entry less if their number is even. -/
def clientMedian (G : GslMedian α) (timeVars : List α) : α :=
  let timeVar2 := G.sort timeVars
  if timeVars.length % 2 = 0 then G.medianFromSorted (timeVar2.take (timeVars.length - 1))
  else G.medianFromSorted (timeVar2.take timeVars.length)

section Client

variable [Sub α] [Div α] [NatCast α] [Zero α]

/-- `time_var[i]`. -/
def timeVar (rtt : α) (e : Exchange α) : α := e.localTime - e.masterTime - rtt / ((2 : ℕ) : α)

/-- `measure_offset` on the client, after the exchanges. -/
def clientOffset (G : GslMedian α) (rtt : α) (exchanges : List (Exchange α)) : ClockOffset α :=
  let localTimes := exchanges.map Exchange.localTime
  let timeVars := exchanges.map (timeVar rtt)
  match (localTimes.zip timeVars).find? fun sample => sample.2 = clientMedian G timeVars with
  | some (localTime, timeVar) => { timestamp := localTime, offset := timeVar }
  | none => { timestamp := 0, offset := 0 }

end Client

/-! ## The median -/

/-- The entry in the middle, the lower one of two. -/
def lowerMedian (l : List α) (h : 1 ≤ l.length) : α :=
  (l.insertionSort (· ≤ ·)).get ⟨(l.length - 1) / 2, by rw [List.length_insertionSort]; omega⟩

theorem sort_eq_insertionSort (G : Gsl α) (l : List α) :
    G.sort l = l.insertionSort (· ≤ ·) :=
  ((G.sort_perm l).trans (l.perm_insertionSort (· ≤ ·)).symm).eq_of_sortedLE (G.sort_sorted l)
    List.sortedLE_insertionSort

/-- The entry in the middle of the first `n` of a sorted array, for odd `n`. -/
theorem medianFromSorted_take (G : GslMedian α) {l : List α} {n : ℕ} (hn : n % 2 = 1)
    (hle : n ≤ l.length) :
    G.medianFromSorted (l.take n) = l[(n - 1) / 2] := by
  have hlen : (l.take n).length = n := List.length_take_of_le hle
  rw [G.median_odd _ (by rw [hlen]; exact hn), List.getElem_take]
  simp only [hlen]

/-- One entry less of an even number of them does not move the lower median. -/
theorem clientMedian_eq (G : GslMedian α) {l : List α} (h : 1 ≤ l.length) :
    clientMedian G l = lowerMedian l h := by
  have hlen : (l.insertionSort (· ≤ ·)).length = l.length := List.length_insertionSort _ _
  rw [clientMedian, lowerMedian, sort_eq_insertionSort, List.get_eq_getElem]
  split
  · next heven =>
    have hmid : (l.length - 1 - 1) / 2 = (l.length - 1) / 2 := by omega
    rw [medianFromSorted_take G (by omega) (by omega)]
    simp only [hmid]
  · next hodd => exact medianFromSorted_take G (by omega) (by omega)

theorem lowerMedian_mem {l : List α} (h : 1 ≤ l.length) : lowerMedian l h ∈ l :=
  (List.mem_insertionSort (· ≤ ·)).mp (List.get_mem _ _)

/-! ## The sample -/

section Sample

variable [Sub α] [Div α] [NatCast α] [Zero α]

/-- What the client returns is the first exchange whose difference is the lower median of all
differences. -/
theorem clientOffset_eq_sample (G : GslMedian α) (rtt : α) (exchanges : List (Exchange α))
    (hn : 1 ≤ exchanges.length) :
    ∃ (i : ℕ) (hi : i < exchanges.length),
      timeVar rtt exchanges[i] = clientMedian G (exchanges.map (timeVar rtt)) ∧
      timeVar rtt exchanges[i] =
        lowerMedian (exchanges.map (timeVar rtt)) (by rwa [List.length_map]) ∧
      (∀ j (hj : j < i), timeVar rtt exchanges[j] ≠ timeVar rtt exchanges[i]) ∧
      clientOffset G rtt exchanges =
        { timestamp := exchanges[i].localTime, offset := timeVar rtt exchanges[i] } := by
  have hlen : 1 ≤ (exchanges.map (timeVar rtt)).length := by rwa [List.length_map]
  have hmedian := clientMedian_eq G hlen
  have hzip : (exchanges.map Exchange.localTime).zip (exchanges.map (timeVar rtt)) =
      exchanges.map fun e => (e.localTime, timeVar rtt e) := List.zip_map' ..
  obtain ⟨e, he, htime⟩ := List.mem_map.mp (lowerMedian_mem hlen)
  cases hfind : exchanges.find? fun e =>
      timeVar rtt e = clientMedian G (exchanges.map (timeVar rtt)) with
  | none =>
    have hnot := List.find?_eq_none.mp hfind e he
    exact absurd (htime.trans hmedian.symm) (by simpa using hnot)
  | some sample =>
    obtain ⟨hsample, i, hi, rfl, hbefore⟩ := List.find?_eq_some_iff_getElem.mp hfind
    have hi_eq := of_decide_eq_true hsample
    refine ⟨i, hi, hi_eq, hi_eq.trans hmedian, fun j hj => ?_, ?_⟩
    · have hj_ne := hbefore j hj
      rw [hi_eq]
      simpa using hj_ne
    · simp only [clientOffset, hzip, List.find?_map, Function.comp_def, hfind, Option.map_some]

end Sample

/-- The routines on rational numbers. -/
def GslMedian.exact : GslMedian ℚ where
  toGsl := Gsl.exact
  medianFromSorted := Gsl.exact.median
  median_odd l h := by
    have hmid : l.length / 2 = (l.length - 1) / 2 := by omega
    have hlt : (l.length - 1) / 2 < l.length := by omega
    simp only [Gsl.exact, hmid, List.getD_eq_getElem?_getD, List.getElem?_eq_getElem hlt,
      Option.getD_some]
    ring

/-- Four exchanges with the differences 3, 1, 2 and 2. -/
def fourExchanges : List (Exchange ℚ) := [⟨1, 5⟩, ⟨4, 6⟩, ⟨7, 10⟩, ⟨9, 12⟩]

theorem clientOffset_eq_sample_four :
    ∃ (i : ℕ) (hi : i < fourExchanges.length),
      timeVar 2 fourExchanges[i] = clientMedian GslMedian.exact (fourExchanges.map (timeVar 2)) ∧
      timeVar 2 fourExchanges[i] = lowerMedian (fourExchanges.map (timeVar 2)) (by decide) ∧
      (∀ j (hj : j < i), timeVar 2 fourExchanges[j] ≠ timeVar 2 fourExchanges[i]) ∧
      clientOffset GslMedian.exact 2 fourExchanges =
        { timestamp := fourExchanges[i].localTime, offset := timeVar 2 fourExchanges[i] } :=
  clientOffset_eq_sample GslMedian.exact 2 fourExchanges (by decide)

end ReproMPI.Clocks.PingpongAlg
