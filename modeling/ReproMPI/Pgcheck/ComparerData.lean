import Mathlib.Tactic
import ReproMPI.Pgcheck.TwoSampleTest

/-!
# Guideline verdicts

A `ComparerData` keeps the runtimes of the default implementation and one test object that
it reuses for every alternative. The Wilcoxon tests cache the z value in that object and
`set_samples` does not reset it, so a verdict can be the one of an earlier alternative.

A `Session` records, beside the object, which alternative the cached value was computed
from. A call is safe when the cached value is not used or is the value of the alternative
asked about; in a run of safe calls every verdict is the verdict of a fresh object. The
Mann-Whitney test reads memory behind its vector, which every call finds as the calls before it
left it, so its verdicts are not safe at all.
-/

namespace ReproMPI.Pgcheck

open CInt

/-- `ComparerData`, as far as its two-sample test is concerned. -/
structure ComparerData (α : Type) where
  runtimes : List α
  twoSampleTest : TwoSampleTest α

/-- A call on a `ComparerData`; an alternative is given by its runtimes. -/
inductive Call (α : Type)
  | getZValue (alt : List α)
  | getCriticalValue (alt : List α)
  | getViolation (alt : List α)

/-- A `ComparerData` in use. `zAlt` is the alternative the last z value was computed for;
the program does not store it. -/
structure Session (α : Type) where
  data : ComparerData α
  zAlt : Option (List α)

/-- One pass of the loop of a comparer: a mockup, a count and the mockup's runtimes. -/
structure Visit (α : Type) where
  mockup : String
  count : ℤ
  runtimes : List α

/-- The verdict a comparer reports for a mockup and a count. -/
structure Verdict where
  mockup : String
  count : ℤ
  violation : Bool
  deriving DecidableEq, Repr

section Calls

variable {α : Type} [Add α] [Sub α] [Mul α] [Div α] [Neg α] [NatCast α] [IntCast α] [BEq α]
  [LE α] [DecidableLE α] [LT α] [DecidableLT α] [FloatingPoint α]

namespace ComparerData

/-- The constructor `ComparerData(rts, test_id)`. -/
def create (runtimes : List α) (kind : TwoSampleTestType) : ComparerData α :=
  { runtimes := runtimes, twoSampleTest := .create kind }

/-- The test object with the samples of a call set. -/
def withSamples (data : ComparerData α) (alt : List α) : TwoSampleTest α :=
  data.twoSampleTest.setSamples data.runtimes alt

/-- `ComparerData::get_z_value`. -/
def getZValue (rt : CppRuntime α) (data : ComparerData α) (alt : List α) :
    Option (α × ComparerData α) := do
  let (z, t) ← (data.withSamples alt).getZValue rt
  some (z, { data with twoSampleTest := t })

/-- `ComparerData::get_critical_value`. -/
def getCriticalValue (data : ComparerData α) (alt : List α) : Option (α × ComparerData α) := do
  let criticalValue ← (data.withSamples alt).getCriticalValue
  some (criticalValue, { data with twoSampleTest := data.withSamples alt })

/-- `ComparerData::get_violation`. -/
def getViolation (rt : CppRuntime α) (data : ComparerData α) (alt : List α) :
    Option (Bool × ComparerData α) := do
  let (violation, t) ← (data.withSamples alt).getViolation rt
  some (violation, { data with twoSampleTest := t })

/-- What `get_violation` returns; `none` when the program ends there. -/
def verdict (rt : CppRuntime α) (data : ComparerData α) (alt : List α) : Option Bool :=
  (data.getViolation rt alt).map Prod.fst

/-- The object after a call. -/
def afterCall (rt : CppRuntime α) (data : ComparerData α) : Call α → Option (ComparerData α)
  | .getZValue alt => (data.getZValue rt alt).map Prod.snd
  | .getCriticalValue alt => (data.getCriticalValue alt).map Prod.snd
  | .getViolation alt => (data.getViolation rt alt).map Prod.snd

end ComparerData

namespace Session

/-- A new object. -/
def start (runtimes : List α) (kind : TwoSampleTestType) : Session α :=
  { data := .create runtimes kind, zAlt := none }

/-- The alternative of the last computed z value after a call. -/
def zAltAfter (s : Session α) : Call α → Option (List α)
  | .getZValue alt => some alt
  | .getCriticalValue _ => s.zAlt
  | .getViolation alt =>
    if s.data.twoSampleTest.zValue != ((0 : ℕ) : α) then s.zAlt else some alt

/-- One call. -/
def step (rt : CppRuntime α) (s : Session α) (call : Call α) : Option (Session α) :=
  (s.data.afterCall rt call).map fun data => { data := data, zAlt := s.zAltAfter call }

/-- A sequence of calls, each with its runtime. -/
def run : Session α → List (CppRuntime α × Call α) → Option (Session α)
  | s, [] => some s
  | s, (rt, call) :: calls => (s.step rt call).bind fun s => run s calls

/-- A verdict is safe when it reads neither a z value cached for another alternative nor memory
behind a vector. -/
def SafeCall (s : Session α) : Call α → Prop
  | .getViolation alt =>
    s.data.twoSampleTest.kind = .tTest ∨
      s.data.twoSampleTest.kind = .wilcoxonRankSum ∧
        ((s.data.twoSampleTest.zValue != ((0 : ℕ) : α)) = false ∨ s.zAlt = some alt)
  | _ => True

/-- All calls of a run are safe. -/
def SafeRun : Session α → List (CppRuntime α × Call α) → Prop
  | _, [] => True
  | s, (rt, call) :: calls =>
    s.SafeCall call ∧ ∀ s', s.step rt call = some s' → SafeRun s' calls

end Session

/-! ## The comparers -/

/-- The measurement data of the mockups, in the order of the hash map: for each mockup its
name and the runtimes of its counts. -/
abbrev MockupData (α : Type) := List (String × List (ℤ × List α))

/-- The passes of the comparers' loops. -/
def visits (mockup2data : MockupData α) : List (Visit α) :=
  (mockup2data.filter fun mockupData => mockupData.1 ≠ "default").flatMap fun mockupData =>
    mockupData.2.map fun (count, runtimes) =>
      { mockup := mockupData.1, count := count, runtimes := runtimes }

/-- `def_res`: one object for every count of the default implementation. -/
def defRes (kind : TwoSampleTestType) (defaults : List (ℤ × List α)) (count : ℤ) :
    Option (ComparerData α) :=
  (defaults.lookup count).map fun runtimes => .create runtimes kind

/-- A pass of `GroupedViolationComparer::get_results`, which only asks for the verdict; `rt j`
is the runtime of its computation `j` of a z value. -/
def groupedVisit (rt : ℕ → CppRuntime α) (data : ComparerData α) (v : Visit α) :
    Option (Bool × ComparerData α) :=
  data.getViolation (rt 0) v.runtimes

/-- A pass of `DetailedViolationComparer::get_results`, which fills the columns of the z
value and the critical value first. -/
def detailedVisit (rt : ℕ → CppRuntime α) (data : ComparerData α) (v : Visit α) :
    Option (Bool × ComparerData α) := do
  let (_, data) ← data.getZValue (rt 0) v.runtimes
  let (_, data) ← data.getCriticalValue v.runtimes
  data.getViolation (rt 1) v.runtimes

/-- The loop of a comparer: the verdicts of all passes; `rt k` are the runtimes of pass `k`. -/
def visitAll
    (visit : (ℕ → CppRuntime α) → ComparerData α → Visit α → Option (Bool × ComparerData α)) :
    (ℕ → ℕ → CppRuntime α) → (ℤ → Option (ComparerData α)) → List (Visit α) →
      Option (List Verdict)
  | _, _, [] => some []
  | rt, res, v :: vs => do
    let data ← res v.count
    let (violation, data) ← visit (rt 0) data v
    let verdicts ←
      visitAll visit (fun k => rt (k + 1)) (Function.update res v.count (some data)) vs
    some ({ mockup := v.mockup, count := v.count, violation := violation } :: verdicts)

/-- The verdicts of `GroupedViolationComparer`. -/
def groupedVerdicts (rt : ℕ → ℕ → CppRuntime α) (kind : TwoSampleTestType)
    (defaults : List (ℤ × List α)) (mockup2data : MockupData α) : Option (List Verdict) :=
  visitAll groupedVisit rt (defRes kind defaults) (visits mockup2data)

/-- The verdicts of `DetailedViolationComparer`. -/
def detailedVerdicts (rt : ℕ → ℕ → CppRuntime α) (kind : TwoSampleTestType)
    (defaults : List (ℤ × List α)) (mockup2data : MockupData α) : Option (List Verdict) :=
  visitAll detailedVisit rt (defRes kind defaults) (visits mockup2data)

/-- The verdict of a fresh object on the runtimes of a pass. -/
def freshVerdict (rt : CppRuntime α) (kind : TwoSampleTestType) (defaults : List (ℤ × List α))
    (v : Visit α) : Option Verdict := do
  let runtimes ← defaults.lookup v.count
  let violation ← (ComparerData.create runtimes kind).verdict rt v.runtimes
  some { mockup := v.mockup, count := v.count, violation := violation }

/-- The call of a pass of the grouped comparer on its object. -/
def groupedCalls (rt : ℕ → CppRuntime α) (v : Visit α) : List (CppRuntime α × Call α) :=
  [(rt 0, .getViolation v.runtimes)]

/-- The calls of a pass of the detailed comparer on its object. -/
def detailedCalls (rt : ℕ → CppRuntime α) (v : Visit α) : List (CppRuntime α × Call α) :=
  [(rt 0, .getZValue v.runtimes), (rt 0, .getCriticalValue v.runtimes),
    (rt 1, .getViolation v.runtimes)]

/-- The calls of all passes on the object of one count. -/
def callsOf (calls : (ℕ → CppRuntime α) → Visit α → List (CppRuntime α × Call α)) (count : ℤ) :
    (ℕ → ℕ → CppRuntime α) → List (Visit α) → List (CppRuntime α × Call α)
  | _, [] => []
  | rt, v :: vs =>
    (if v.count = count then calls (rt 0) v else []) ++
      callsOf calls count (fun k => rt (k + 1)) vs

end Calls

/-! ## One call on a test object -/

section CriticalValue

variable {α : Type} [Div α] [NatCast α]

/-- The critical value of two samples. -/
def criticalValueOf (kind : TwoSampleTestType) (sample1 sample2 : List α) : Option α :=
  match kind with
  | .tTest => criticalValueAt (ofLong ((sample1.length : ℤ) + sample2.length - 2))
  | _ => criticalValueAt (ofLong (min sample1.length sample2.length : ℕ))

theorem TwoSampleTest.getCriticalValue_eq {t t' : TwoSampleTest α} (hkind : t'.kind = t.kind)
    (h1 : t'.sample1.length = t.sample1.length) (h2 : t'.sample2.length = t.sample2.length) :
    t'.getCriticalValue = criticalValueOf t.kind t.sample1 t.sample2 := by
  unfold getCriticalValue criticalValueOf
  cases hk : t.kind <;> simp only [hkind, hk, h1, h2]

end CriticalValue

section Verdicts

variable {α : Type} [Add α] [Sub α] [Mul α] [Div α] [NatCast α] [IntCast α] [BEq α]
  [LE α] [DecidableLE α] [LT α] [FloatingPoint α]

/-- The z value of two samples. -/
def zOf (rt : CppRuntime α) (kind : TwoSampleTestType) (sample1 sample2 : List α) : Option α :=
  match kind with
  | .tTest => tTestZ sample1 sample2
  | .wilcoxonRankSum =>
    rankSumZ (sample1.insertionSort (· ≤ ·)) (sample2.insertionSort (· ≤ ·))
  | .wilcoxonMannWhitney => mannWhitneyZ rt sample1 sample2

/-- Only the Mann-Whitney test reads behind a vector. -/
theorem zOf_congr {kind : TwoSampleTestType} (hkind : kind ≠ .wilcoxonMannWhitney)
    (rt rt' : CppRuntime α) (sample1 sample2 : List α) :
    zOf rt kind sample1 sample2 = zOf rt' kind sample1 sample2 := by
  cases kind with
  | tTest | wilcoxonRankSum => rfl
  | wilcoxonMannWhitney => exact absurd rfl hkind

/-- The z value is that of the samples; a Wilcoxon test stores it. -/
theorem TwoSampleTest.getZValue_spec (rt : CppRuntime α) (t : TwoSampleTest α) :
    (t.getZValue rt).map Prod.fst = zOf rt t.kind t.sample1 t.sample2 ∧
      ∀ z t', t.getZValue rt = some (z, t') → t'.kind = t.kind ∧
        t'.sample1.length = t.sample1.length ∧ t'.sample2.length = t.sample2.length ∧
        t'.zValue = if t.kind = .tTest then t.zValue else z := by
  unfold getZValue zOf
  cases hkind : t.kind with
  | tTest =>
    cases hz : tTestZ t.sample1 t.sample2 with
    | none => simp
    | some z => simp +contextual [hkind, eq_comm]
  | wilcoxonRankSum =>
    cases hz : rankSumZ (t.sample1.insertionSort (· ≤ ·)) (t.sample2.insertionSort (· ≤ ·)) with
    | none => simp [hz]
    | some z =>
      simp only [hz, Option.bind_eq_bind, Option.bind_some, Option.map_some, true_and,
        Option.some.injEq, Prod.mk.injEq]
      rintro _ _ ⟨rfl, rfl⟩
      simp [List.length_insertionSort]
  | wilcoxonMannWhitney =>
    cases hz : mannWhitneyZ rt t.sample1 t.sample2 with
    | none => simp
    | some z => simp +contextual [eq_comm]

variable [Neg α] [DecidableLT α]

/-- The verdict on two samples. -/
def verdictOf (rt : CppRuntime α) (kind : TwoSampleTestType) (sample1 sample2 : List α) :
    Option Bool := do
  let z ← zOf rt kind sample1 sample2
  let criticalValue ← criticalValueOf kind sample1 sample2
  some (decide (z < -criticalValue))

theorem verdictOf_congr {kind : TwoSampleTestType} (hkind : kind ≠ .wilcoxonMannWhitney)
    (rt rt' : CppRuntime α) (sample1 sample2 : List α) :
    verdictOf rt kind sample1 sample2 = verdictOf rt' kind sample1 sample2 := by
  rw [verdictOf, verdictOf, zOf_congr hkind rt rt']

namespace TwoSampleTest

variable {t : TwoSampleTest α}

theorem compareZValue_spec (rt : CppRuntime α) (t : TwoSampleTest α) :
    (t.compareZValue rt).map Prod.fst = verdictOf rt t.kind t.sample1 t.sample2 ∧
      ∀ b t', t.compareZValue rt = some (b, t') → t'.kind = t.kind ∧
        ∃ z, zOf rt t.kind t.sample1 t.sample2 = some z ∧
          t'.zValue = if t.kind = .tTest then t.zValue else z := by
  obtain ⟨hz, hafter⟩ := getZValue_spec rt t
  rw [compareZValue, verdictOf]
  rw [← hz]
  cases hget : t.getZValue rt with
  | none => simp
  | some zt =>
    obtain ⟨z, t₁⟩ := zt
    obtain ⟨hkind, h1, h2, hval⟩ := hafter z t₁ hget
    simp only [Option.bind_eq_bind, Option.bind_some, Option.map_some,
      getCriticalValue_eq hkind h1 h2]
    cases criticalValueOf t.kind t.sample1 t.sample2 with
    | none => simp
    | some c =>
      simp only [Option.bind_some, Option.map_some, Option.some.injEq, Prod.mk.injEq, true_and]
      rintro _ _ ⟨_, rfl⟩
      exact ⟨hkind, z, rfl, hval⟩

/-- A verdict that does not read the cached value is the verdict of the samples. -/
theorem getViolation_of_fresh (rt : CppRuntime α) {t : TwoSampleTest α}
    (h : t.kind = .tTest ∨ (t.zValue != ((0 : ℕ) : α)) = false) :
    t.getViolation rt = t.compareZValue rt := by
  rw [getViolation]
  cases hkind : t.kind with
  | tTest => rfl
  | wilcoxonRankSum | wilcoxonMannWhitney =>
    have hz : (t.zValue != ((0 : ℕ) : α)) = false := by simpa [hkind] using h
    simp only [hz, Bool.false_eq_true, if_false]

/-- A verdict that reads the cached value leaves the object as it is. -/
theorem getViolation_of_cached (rt : CppRuntime α) {t : TwoSampleTest α} (hkind : t.kind ≠ .tTest)
    (hz : (t.zValue != ((0 : ℕ) : α)) = true) :
    t.getViolation rt =
      (criticalValueOf t.kind t.sample1 t.sample2).map fun c => (decide (t.zValue < -c), t) := by
  rw [← getCriticalValue_eq rfl rfl rfl]
  rw [getViolation]
  cases hk : t.kind with
  | tTest => exact absurd hk hkind
  | wilcoxonRankSum | wilcoxonMannWhitney =>
    simp only [hz, if_true]
    cases t.getCriticalValue <;> rfl

end TwoSampleTest

end Verdicts

section Sessions

variable {α : Type} [Add α] [Sub α] [Mul α] [Div α] [Neg α] [NatCast α] [IntCast α] [BEq α]
  [LE α] [DecidableLE α] [LT α] [DecidableLT α] [FloatingPoint α]
  {rt : CppRuntime α} {runtimes : List α} {kind : TwoSampleTestType}

/-- The cached value of a session is a z value of the alternative it was computed for. -/
structure SessionInv (runtimes : List α) (kind : TwoSampleTestType) (s : Session α) : Prop where
  runtimes_eq : s.data.runtimes = runtimes
  kind_eq : s.data.twoSampleTest.kind = kind
  cached : kind ≠ .tTest → (s.data.twoSampleTest.zValue != ((0 : ℕ) : α)) = true →
    ∃ rt alt, s.zAlt = some alt ∧ zOf rt kind runtimes alt = some s.data.twoSampleTest.zValue

omit [Neg α] [DecidableLT α] in
theorem sessionInv_start (runtimes : List α) (kind : TwoSampleTestType) :
    SessionInv runtimes kind (.start runtimes kind) where
  runtimes_eq := rfl
  kind_eq := rfl
  cached := fun _ hz => by
    have h0 : (((0 : ℕ) : α) != ((0 : ℕ) : α)) = true := hz
    rw [zero_bne_zero] at h0
    exact absurd h0 (by decide)

/-- A fresh object decides by the samples alone. -/
theorem create_verdict (rt : CppRuntime α) (runtimes alt : List α) (kind : TwoSampleTestType) :
    (ComparerData.create runtimes kind).verdict rt alt = verdictOf rt kind runtimes alt := by
  have hfresh := TwoSampleTest.getViolation_of_fresh rt
    (t := (ComparerData.create runtimes kind).withSamples alt) (Or.inr zero_bne_zero)
  have hspec := (TwoSampleTest.compareZValue_spec rt
    ((ComparerData.create runtimes kind).withSamples alt)).1
  rw [ComparerData.verdict, ComparerData.getViolation]
  rw [hfresh]
  refine Eq.trans ?_ hspec
  cases ((ComparerData.create runtimes kind).withSamples alt).compareZValue rt <;> rfl

/-- Every call keeps the cached value paired with its alternative. -/
theorem SessionInv.step {s s' : Session α} {call : Call α} (h : SessionInv runtimes kind s)
    (hstep : s.step rt call = some s') : SessionInv runtimes kind s' := by
  obtain ⟨hrun, hkind, hcached⟩ := h
  simp only [Session.step, Option.map_eq_some_iff] at hstep
  obtain ⟨data, hdata, rfl⟩ := hstep
  cases call with
  | getZValue alt =>
    simp only [ComparerData.afterCall, ComparerData.getZValue, Option.bind_eq_bind,
      Option.map_eq_some_iff, Option.bind_eq_some_iff, Option.some.injEq] at hdata
    obtain ⟨_, ⟨⟨z, t⟩, hz, rfl⟩, rfl⟩ := hdata
    obtain ⟨hval, hafter⟩ :=
      TwoSampleTest.getZValue_spec rt (s.data.withSamples alt)
    obtain ⟨hk, _, _, hzv⟩ := hafter z t hz
    rw [hz] at hval
    refine ⟨hrun, hk.trans hkind, fun hne _ => ⟨rt, alt, rfl, ?_⟩⟩
    have htz : t.zValue = z := by
      rw [hzv, if_neg]
      exact fun hc => hne (hkind.symm.trans hc)
    have hzOf : some z = zOf rt s.data.twoSampleTest.kind s.data.runtimes alt := hval
    rw [hkind, hrun] at hzOf
    exact hzOf.symm.trans (congrArg some htz.symm)
  | getCriticalValue alt =>
    simp only [ComparerData.afterCall, ComparerData.getCriticalValue, Option.bind_eq_bind,
      Option.map_eq_some_iff, Option.bind_eq_some_iff, Option.some.injEq] at hdata
    obtain ⟨_, ⟨_, _, rfl⟩, rfl⟩ := hdata
    exact ⟨hrun, hkind, hcached⟩
  | getViolation alt =>
    simp only [ComparerData.afterCall, ComparerData.getViolation, Option.bind_eq_bind,
      Option.map_eq_some_iff, Option.bind_eq_some_iff, Option.some.injEq] at hdata
    obtain ⟨_, ⟨⟨b, t⟩, hb, rfl⟩, rfl⟩ := hdata
    -- with a cached value the samples of this call are not looked at
    by_cases hz : (s.data.twoSampleTest.zValue != ((0 : ℕ) : α)) = true
    · simp only [Session.zAltAfter, hz, if_true]
      -- the t-test does not use the cached value
      by_cases hk : kind = .tTest
      · rw [TwoSampleTest.getViolation_of_fresh rt (t := s.data.withSamples alt)
          (Or.inl (hkind.trans hk))] at hb
        obtain ⟨hk', _⟩ := (TwoSampleTest.compareZValue_spec rt _).2 b t hb
        exact ⟨hrun, hk'.trans hkind, fun hne => absurd hk hne⟩
      · rw [TwoSampleTest.getViolation_of_cached rt (t := s.data.withSamples alt)
          (fun hc => hk (hkind.symm.trans hc)) hz, Option.map_eq_some_iff] at hb
        obtain ⟨_, _, hbt⟩ := hb
        obtain ⟨_, rfl⟩ := Prod.mk.injEq .. ▸ hbt
        exact ⟨hrun, hkind, hcached⟩
    · have hz' : (s.data.twoSampleTest.zValue != ((0 : ℕ) : α)) = false := by simpa using hz
      rw [TwoSampleTest.getViolation_of_fresh rt (t := s.data.withSamples alt) (Or.inr hz')] at hb
      obtain ⟨hk', z, hzOf, hzv⟩ := (TwoSampleTest.compareZValue_spec rt _).2 b t hb
      refine ⟨hrun, hk'.trans hkind, fun hne _ => ⟨rt, alt, ?_, ?_⟩⟩
      · simp only [Session.zAltAfter, hz', Bool.false_eq_true, if_false]
      · have hzOf' : zOf rt s.data.twoSampleTest.kind s.data.runtimes alt = some z := hzOf
        rw [hkind, hrun] at hzOf'
        have htz : t.zValue = z := by
          rw [hzv, if_neg]
          exact fun hc => hne (hkind.symm.trans hc)
        exact hzOf'.trans (congrArg some htz.symm)

/-- A verdict is the one of the samples unless it reads a value cached for another alternative,
whatever the memory holds. -/
theorem SessionInv.verdict_eq {s : Session α} {alt : List α} (rt rt' : CppRuntime α)
    (h : SessionInv runtimes kind s) (hmemory : kind ≠ .wilcoxonMannWhitney)
    (hcurrent : kind = .tTest ∨ (s.data.twoSampleTest.zValue != ((0 : ℕ) : α)) = false ∨
      s.zAlt = some alt) :
    s.data.verdict rt alt = verdictOf rt' kind runtimes alt := by
  obtain ⟨hrun, hkind, hcached⟩ := h
  have hverdict : s.data.verdict rt alt =
      ((s.data.withSamples alt).getViolation rt).map Prod.fst := by
    rw [ComparerData.verdict, ComparerData.getViolation]
    cases (s.data.withSamples alt).getViolation rt <;> rfl
  rw [hverdict, verdictOf_congr hmemory rt' rt]
  by_cases hfresh : s.data.twoSampleTest.kind = .tTest ∨
      (s.data.twoSampleTest.zValue != ((0 : ℕ) : α)) = false
  · rw [TwoSampleTest.getViolation_of_fresh rt (t := s.data.withSamples alt) hfresh,
      (TwoSampleTest.compareZValue_spec rt _).1]
    exact congrArg₂ (fun k r => verdictOf rt k r alt) hkind hrun
  · obtain ⟨hk, hz⟩ := not_or.mp hfresh
    have hz' : (s.data.twoSampleTest.zValue != ((0 : ℕ) : α)) = true := by simpa using hz
    have hne : kind ≠ .tTest := fun hc => hk (hkind.trans hc)
    have halt : s.zAlt = some alt := (hcurrent.resolve_left hne).resolve_left hz
    obtain ⟨rt₀, alt', halt', hzOf⟩ := hcached hne hz'
    obtain rfl : alt = alt' := Option.some.inj (halt.symm.trans halt')
    rw [zOf_congr hmemory rt₀ rt] at hzOf
    rw [TwoSampleTest.getViolation_of_cached rt (t := s.data.withSamples alt) hk hz']
    have hcrit : criticalValueOf (s.data.withSamples alt).kind (s.data.withSamples alt).sample1
        (s.data.withSamples alt).sample2 = criticalValueOf kind runtimes alt :=
      congrArg₂ (fun k r => criticalValueOf k r alt) hkind hrun
    rw [hcrit]
    rw [verdictOf]
    rw [hzOf]
    cases criticalValueOf kind runtimes alt <;> rfl

/-- A safe verdict is decided by the samples alone. -/
theorem SessionInv.safe_verdict {s : Session α} {alt : List α} (rt rt' : CppRuntime α)
    (h : SessionInv runtimes kind s) (hsafe : s.SafeCall (.getViolation alt)) :
    s.data.verdict rt alt = verdictOf rt' kind runtimes alt := by
  have hkind := h.kind_eq
  rcases hsafe with htest | ⟨htest, hcurrent⟩
  · rw [hkind] at htest
    exact h.verdict_eq rt rt' (by rw [htest]; decide) (Or.inl htest)
  · rw [hkind] at htest
    exact h.verdict_eq rt rt' (by rw [htest]; decide) (Or.inr hcurrent)

/-- A run keeps the invariant. -/
theorem SessionInv.run {s s' : Session α} {calls : List (CppRuntime α × Call α)}
    (h : SessionInv runtimes kind s) (hrun : s.run calls = some s') :
    SessionInv runtimes kind s' := by
  induction calls generalizing s with
  | nil =>
    obtain rfl : s = s' := Option.some.inj hrun
    exact h
  | cons call calls ih =>
    obtain ⟨s₁, hstep, hrest⟩ := Option.bind_eq_some_iff.mp hrun
    exact ih (h.step hstep) hrest

/-- The last call of a safe run is safe in the state it is made in. -/
theorem safeCall_of_safeRun {s s' : Session α} {calls : List (CppRuntime α × Call α)}
    {call : Call α} (hsafe : s.SafeRun (calls ++ [(rt, call)])) (hrun : s.run calls = some s') :
    s'.SafeCall call := by
  induction calls generalizing s with
  | nil =>
    obtain rfl : s = s' := Option.some.inj hrun
    exact hsafe.1
  | cons c calls ih =>
    obtain ⟨s₁, hstep, hrest⟩ := Option.bind_eq_some_iff.mp hrun
    exact ih (hsafe.2 s₁ hstep) hrest

end Sessions

section Comparers

variable {α : Type} [Add α] [Sub α] [Mul α] [Div α] [Neg α] [NatCast α] [IntCast α] [BEq α]
  [LE α] [DecidableLE α] [LT α] [DecidableLT α] [FloatingPoint α]
  {runtimes : List α} {kind : TwoSampleTestType} {defaults : List (ℤ × List α)}

theorem groupedVisit_spec {rt : ℕ → CppRuntime α} {s : Session α} {v : Visit α}
    (rt' : CppRuntime α) (h : SessionInv runtimes kind s)
    (hsafe : s.SafeCall (.getViolation v.runtimes)) :
    (groupedVisit rt s.data v).map Prod.fst = verdictOf rt' kind runtimes v.runtimes ∧
      ∀ b data, groupedVisit rt s.data v = some (b, data) →
        ∃ s', s.step (rt 0) (.getViolation v.runtimes) = some s' ∧ s'.data = data := by
  refine ⟨h.safe_verdict (rt 0) rt' hsafe, fun b data hvisit => ?_⟩
  have hget : s.data.getViolation (rt 0) v.runtimes = some (b, data) := hvisit
  refine ⟨{ data := data, zAlt := s.zAltAfter (.getViolation v.runtimes) }, ?_, rfl⟩
  simp only [Session.step, ComparerData.afterCall, hget, Option.map_some]

variable {rt : CppRuntime α}

theorem Session.step_zAlt {s s' : Session α} {call : Call α} (h : s.step rt call = some s') :
    s'.zAlt = s.zAltAfter call := by
  obtain ⟨data, _, rfl⟩ := Option.map_eq_some_iff.mp h
  rfl

/-- The program ends in `get_z_value` exactly when the samples have no z value. -/
theorem SessionInv.step_getZValue_eq_none {s : Session α} {alt : List α}
    (h : SessionInv runtimes kind s) (hstep : s.step rt (.getZValue alt) = none) :
    zOf rt kind runtimes alt = none := by
  have hget : (s.data.withSamples alt).getZValue rt = none := by
    simp only [Session.step, ComparerData.afterCall, ComparerData.getZValue,
      Option.map_eq_none_iff, Option.bind_eq_bind] at hstep
    cases hz : (s.data.withSamples alt).getZValue rt with
    | none => rfl
    | some zt => simp [hz] at hstep
  obtain ⟨hz, _⟩ := TwoSampleTest.getZValue_spec rt (s.data.withSamples alt)
  rw [hget, Option.map_none] at hz
  rw [← h.kind_eq, ← h.runtimes_eq]
  exact hz.symm

theorem SessionInv.step_getCriticalValue_eq_none {s : Session α} {alt : List α}
    (h : SessionInv runtimes kind s) (hstep : s.step rt (.getCriticalValue alt) = none) :
    criticalValueOf kind runtimes alt = none := by
  have hget : (s.data.withSamples alt).getCriticalValue = none := by
    simp only [Session.step, ComparerData.afterCall, ComparerData.getCriticalValue,
      Option.map_eq_none_iff, Option.bind_eq_bind] at hstep
    cases hc : (s.data.withSamples alt).getCriticalValue with
    | none => rfl
    | some c => simp [hc] at hstep
  rw [TwoSampleTest.getCriticalValue_eq (t := s.data.withSamples alt) rfl rfl rfl] at hget
  rw [← h.kind_eq, ← h.runtimes_eq]
  exact hget

theorem detailedVisit_eq (rt : ℕ → CppRuntime α) (s : Session α) (v : Visit α) :
    detailedVisit rt s.data v =
      (s.step (rt 0) (.getZValue v.runtimes)).bind fun s₁ =>
        (s₁.step (rt 0) (.getCriticalValue v.runtimes)).bind fun s₂ =>
          s₂.data.getViolation (rt 1) v.runtimes := by
  simp only [detailedVisit, Session.step, ComparerData.afterCall, Option.bind_eq_bind]
  cases s.data.getZValue (rt 0) v.runtimes with
  | none => rfl
  | some zd =>
    simp only [Option.bind_some, Option.map_some]
    cases zd.2.getCriticalValue v.runtimes <;> rfl

/-- The detailed comparer computes the z value right before it asks for the verdict. -/
theorem detailedVisit_spec {rt : ℕ → CppRuntime α} {s : Session α} (rt' : CppRuntime α)
    (v : Visit α) (h : SessionInv runtimes kind s) (hmemory : kind ≠ .wilcoxonMannWhitney) :
    (detailedVisit rt s.data v).map Prod.fst = verdictOf rt' kind runtimes v.runtimes ∧
      ∀ b data, detailedVisit rt s.data v = some (b, data) →
        ∃ s', s'.data = data ∧ SessionInv runtimes kind s' := by
  rw [detailedVisit_eq, verdictOf_congr hmemory rt' (rt 0)]
  cases hs₁ : s.step (rt 0) (.getZValue v.runtimes) with
  | none =>
    have hz := h.step_getZValue_eq_none hs₁
    simp [verdictOf, hz]
  | some s₁ =>
    have hinv₁ := h.step hs₁
    simp only [Option.bind_some]
    cases hs₂ : s₁.step (rt 0) (.getCriticalValue v.runtimes) with
    | none =>
      have hc := hinv₁.step_getCriticalValue_eq_none hs₂
      have hverdict : verdictOf (rt 0) kind runtimes v.runtimes = none := by
        rw [verdictOf]
        rw [hc]
        cases zOf (rt 0) kind runtimes v.runtimes <;> rfl
      simp [hverdict]
    | some s₂ =>
      have hinv₂ := hinv₁.step hs₂
      have halt : s₂.zAlt = some v.runtimes :=
        (Session.step_zAlt hs₂).trans (Session.step_zAlt hs₁)
      simp only [Option.bind_some]
      refine ⟨hinv₂.verdict_eq (rt 1) (rt 0) hmemory (Or.inr (Or.inr halt)), fun b data hb => ?_⟩
      let s₃ : Session α := { data := data, zAlt := s₂.zAltAfter (.getViolation v.runtimes) }
      have hs₃ : s₂.step (rt 1) (.getViolation v.runtimes) = some s₃ := by
        simp only [Session.step, ComparerData.afterCall, hb, Option.map_some]
        rfl
      exact ⟨s₃, rfl, hinv₂.step hs₃⟩

/-- The objects of a comparer's loop belong to the counts of the default implementation. -/
def Tracks (kind : TwoSampleTestType) (defaults : List (ℤ × List α))
    (P : ℤ → Session α → Prop) (res : ℤ → Option (ComparerData α)) : Prop :=
  ∀ count, (res count = none ∧ defaults.lookup count = none) ∨
    ∃ runtimes s, defaults.lookup count = some runtimes ∧ res count = some s.data ∧
      SessionInv runtimes kind s ∧ P count s

omit [Neg α] [DecidableLT α] in
theorem tracks_defRes {P : ℤ → Session α → Prop}
    (h : ∀ count runtimes, defaults.lookup count = some runtimes →
      P count (.start runtimes kind)) :
    Tracks kind defaults P (defRes kind defaults) := by
  intro count
  rw [defRes]
  cases hlookup : defaults.lookup count with
  | none => exact Or.inl ⟨rfl, rfl⟩
  | some runtimes =>
    exact Or.inr ⟨runtimes, .start runtimes kind, rfl, rfl,
      sessionInv_start runtimes kind, h count runtimes hlookup⟩

/-- A loop whose passes decide by the samples alone reports the fresh verdicts. -/
theorem visitAll_eq
    {visit : (ℕ → CppRuntime α) → ComparerData α → Visit α → Option (Bool × ComparerData α)}
    {fresh : Visit α → CppRuntime α}
    {P : (ℕ → ℕ → CppRuntime α) → List (Visit α) → ℤ → Session α → Prop}
    (hvisit : ∀ rt v vs runtimes s, SessionInv runtimes kind s → P rt (v :: vs) v.count s →
      (visit (rt 0) s.data v).map Prod.fst = verdictOf (fresh v) kind runtimes v.runtimes ∧
        ∀ b data, visit (rt 0) s.data v = some (b, data) →
          ∃ s', s'.data = data ∧ SessionInv runtimes kind s' ∧
            P (fun k => rt (k + 1)) vs v.count s')
    (hother : ∀ rt v vs count s, count ≠ v.count → P rt (v :: vs) count s →
      P (fun k => rt (k + 1)) vs count s)
    (rt : ℕ → ℕ → CppRuntime α) (vs : List (Visit α)) (res : ℤ → Option (ComparerData α))
    (h : Tracks kind defaults (P rt vs) res) :
    visitAll visit rt res vs = vs.mapM fun v => freshVerdict (fresh v) kind defaults v := by
  induction vs generalizing rt res with
  | nil => rfl
  | cons v vs ih =>
    rw [visitAll, List.mapM_cons, freshVerdict]
    rcases h v.count with ⟨hres, hlookup⟩ | ⟨runtimes, s, hlookup, hres, hinv, hok⟩
    · rw [hres, hlookup]
      rfl
    · obtain ⟨hfst, hafter⟩ := hvisit rt v vs runtimes s hinv hok
      rw [hres, hlookup]
      simp only [Option.bind_eq_bind, Option.bind_some, create_verdict, ← hfst]
      cases hv : visit (rt 0) s.data v with
      | none => rfl
      | some bd =>
        obtain ⟨b, data⟩ := bd
        obtain ⟨s', rfl, hinv', hok'⟩ := hafter b data hv
        have htracks : Tracks kind defaults (P (fun k => rt (k + 1)) vs)
            (Function.update res v.count (some s'.data)) := by
          intro count
          by_cases hc : count = v.count
          · subst hc
            exact Or.inr ⟨runtimes, s', hlookup, Function.update_self .., hinv', hok'⟩
          · rw [Function.update_of_ne hc]
            rcases h count with hnone | ⟨r, s, hl, hr, hi, ho⟩
            · exact Or.inl hnone
            · exact Or.inr ⟨r, s, hl, hr, hi, hother rt v vs count s hc ho⟩
        simp only [Option.map_some, Option.bind_some, ih _ _ htracks]
        rfl

theorem Session.run_append (s : Session α) (calls calls' : List (CppRuntime α × Call α)) :
    s.run (calls ++ calls') = (s.run calls).bind fun s => s.run calls' := by
  induction calls generalizing s with
  | nil => rfl
  | cons call calls ih =>
    rw [List.cons_append, Session.run, Session.run]
    cases s.step call.1 call.2 with
    | none => rfl
    | some s' => exact ih s'

/-- A loop comes to its end exactly when the calls on the object of every count do. -/
theorem isSome_visitAll_iff
    {visit : (ℕ → CppRuntime α) → ComparerData α → Visit α → Option (Bool × ComparerData α)}
    {calls : (ℕ → CppRuntime α) → Visit α → List (CppRuntime α × Call α)}
    (hvisit : ∀ rt (s : Session α) v,
      (visit rt s.data v).map Prod.snd = (s.run (calls rt v)).map Session.data)
    {rt : ℕ → ℕ → CppRuntime α} {vs : List (Visit α)} {sessions : ℤ → Option (Session α)}
    (hcounts : ∀ v ∈ vs, (sessions v.count).isSome) :
    (visitAll visit rt (fun count => (sessions count).map Session.data) vs).isSome ↔
      ∀ count s, sessions count = some s → (s.run (callsOf calls count rt vs)).isSome := by
  induction vs generalizing rt sessions with
  | nil => exact iff_of_true rfl fun _ _ _ => rfl
  | cons v vs ih =>
    obtain ⟨s, hs⟩ := Option.isSome_iff_exists.mp (hcounts v List.mem_cons_self)
    have hpass := hvisit (rt 0) s v
    rw [visitAll]
    simp only [hs, Option.map_some, Option.bind_eq_bind, Option.bind_some]
    cases hrun : s.run (calls (rt 0) v) with
    | none =>
      rw [hrun, Option.map_none, Option.map_eq_none_iff] at hpass
      refine iff_of_false (by simp [hpass]) fun h => ?_
      have hall := h v.count s hs
      rw [callsOf, if_pos rfl, Session.run_append, hrun] at hall
      exact Bool.false_ne_true hall
    | some s' =>
      rw [hrun, Option.map_some, Option.map_eq_some_iff] at hpass
      obtain ⟨⟨violation, data⟩, hpass, rfl⟩ := hpass
      -- the object of this count goes on from the state after its calls
      have hupdate : Function.update (fun count => (sessions count).map Session.data) v.count
          (some s'.data) = fun count =>
            (Function.update sessions v.count (some s') count).map Session.data :=
        (Function.comp_update (Option.map Session.data) sessions v.count (some s')).symm
      have hcounts' : ∀ v' ∈ vs,
          (Function.update sessions v.count (some s') v'.count).isSome := by
        intro v' hv'
        by_cases hcount : v'.count = v.count
        · rw [hcount, Function.update_self]
          rfl
        · rw [Function.update_of_ne hcount]
          exact hcounts v' (List.mem_cons_of_mem _ hv')
      simp only [hpass, Option.bind_some, hupdate, Option.isSome_bind, Option.isSome_some,
        Option.any_true]
      rw [ih hcounts']
      refine forall_congr' fun count => ?_
      rw [callsOf]
      by_cases hcount : count = v.count
      · rw [hcount, Function.update_self, if_pos rfl]
        simp only [Option.some.injEq, hs, forall_eq', Session.run_append, hrun, Option.bind_some]
      · rw [Function.update_of_ne hcount, if_neg (Ne.symm hcount), List.nil_append]

theorem groupedVisit_run (rt : ℕ → CppRuntime α) (s : Session α) (v : Visit α) :
    (groupedVisit rt s.data v).map Prod.snd =
      (s.run (groupedCalls rt v)).map Session.data := by
  simp only [groupedVisit, groupedCalls, Session.run, Session.step, ComparerData.afterCall]
  cases s.data.getViolation (rt 0) v.runtimes <;> rfl

theorem detailedVisit_run (rt : ℕ → CppRuntime α) (s : Session α) (v : Visit α) :
    (detailedVisit rt s.data v).map Prod.snd =
      (s.run (detailedCalls rt v)).map Session.data := by
  rw [detailedVisit_eq]
  simp only [detailedCalls, Session.run]
  cases s.step (rt 0) (.getZValue v.runtimes) with
  | none => rfl
  | some s₁ =>
    simp only [Option.bind_some]
    cases s₁.step (rt 0) (.getCriticalValue v.runtimes) with
    | none => rfl
    | some s₂ =>
      simp only [Option.bind_some, Session.step, ComparerData.afterCall]
      cases s₂.data.getViolation (rt 1) v.runtimes <;> rfl

/-- The detailed comparer reports the verdicts of fresh objects. -/
theorem detailedVerdicts_eq (rt : ℕ → ℕ → CppRuntime α) (fresh : Visit α → CppRuntime α)
    (hmemory : kind ≠ .wilcoxonMannWhitney) (defaults : List (ℤ × List α))
    (mockup2data : MockupData α) :
    detailedVerdicts rt kind defaults mockup2data =
      (visits mockup2data).mapM fun v => freshVerdict (fresh v) kind defaults v := by
  refine visitAll_eq (P := fun _ _ _ _ => True) ?_ (fun _ _ _ _ _ _ _ => trivial) _ _ _
    (tracks_defRes fun _ _ _ => trivial)
  intro rt v vs runtimes s hinv _
  obtain ⟨hfst, hafter⟩ := detailedVisit_spec (fresh v) v hinv hmemory
  refine ⟨hfst, fun b data hb => ?_⟩
  obtain ⟨s', hs', hinv'⟩ := hafter b data hb
  exact ⟨s', hs', hinv', trivial⟩

/-- So does the grouped one, when its calls on the object of each count are safe. -/
theorem groupedVerdicts_eq (rt : ℕ → ℕ → CppRuntime α) (fresh : Visit α → CppRuntime α)
    (kind : TwoSampleTestType) (defaults : List (ℤ × List α)) (mockup2data : MockupData α)
    (hsafe : ∀ count runtimes, defaults.lookup count = some runtimes →
      (Session.start runtimes kind).SafeRun
        (callsOf groupedCalls count rt (visits mockup2data))) :
    groupedVerdicts rt kind defaults mockup2data =
      (visits mockup2data).mapM fun v => freshVerdict (fresh v) kind defaults v := by
  refine visitAll_eq (P := fun rt vs count s => s.SafeRun (callsOf groupedCalls count rt vs))
    ?_ ?_ _ _ _ (tracks_defRes hsafe)
  · intro rt v vs runtimes s hinv hok
    simp only [callsOf, groupedCalls, if_true, List.singleton_append, Session.SafeRun] at hok
    obtain ⟨hfst, hafter⟩ := groupedVisit_spec (fresh v) hinv hok.1
    refine ⟨hfst, fun b data hb => ?_⟩
    obtain ⟨s', hstep, hs'⟩ := hafter b data hb
    exact ⟨s', hs', hinv.step hstep, hok.2 s' hstep⟩
  · intro rt v vs count s hne hok
    rwa [callsOf, if_neg hne.symm, List.nil_append] at hok

end Comparers

section Runs

variable {α : Type} [Add α] [Sub α] [Mul α] [Div α] [Neg α] [NatCast α] [IntCast α] [BEq α]
  [LE α] [DecidableLE α] [LT α] [DecidableLT α] [FloatingPoint α]

/-- A verdict depends only on the two samples, in every run in which no verdict reads a z
value cached for another alternative or memory behind a vector, whatever each call finds there
and whatever the fresh object finds. Without the Mann-Whitney test the detailed comparer only
makes such runs; the grouped comparer agrees with it whenever its own runs are safe. -/
theorem verdicts_depend_on_samples (kind : TwoSampleTestType) :
    (∀ (runtimes : List α) (calls : List (CppRuntime α × Call α)) (rt fresh : CppRuntime α)
      (alt : List α) (s : Session α),
      (Session.start runtimes kind).SafeRun (calls ++ [(rt, .getViolation alt)]) →
      (Session.start runtimes kind).run calls = some s →
      s.data.verdict rt alt = (ComparerData.create runtimes kind).verdict fresh alt) ∧
    ∀ (rt : ℕ → ℕ → CppRuntime α) (fresh : Visit α → CppRuntime α)
      (defaults : List (ℤ × List α)) (mockup2data : MockupData α),
      (kind ≠ .wilcoxonMannWhitney →
        detailedVerdicts rt kind defaults mockup2data =
          (visits mockup2data).mapM fun v => freshVerdict (fresh v) kind defaults v) ∧
      ((∀ count runtimes, defaults.lookup count = some runtimes →
          (Session.start runtimes kind).SafeRun
            (callsOf groupedCalls count rt (visits mockup2data))) →
        groupedVerdicts rt kind defaults mockup2data =
          (visits mockup2data).mapM fun v => freshVerdict (fresh v) kind defaults v) := by
  refine ⟨fun runtimes calls rt fresh alt s hsafe hrun => ?_,
    fun rt fresh defaults mockup2data => ?_⟩
  · have hinv := (sessionInv_start runtimes kind).run hrun
    rw [hinv.safe_verdict rt fresh (safeCall_of_safeRun hsafe hrun), create_verdict]
  · exact ⟨fun hmemory => detailedVerdicts_eq rt fresh hmemory defaults mockup2data,
      groupedVerdicts_eq rt fresh kind defaults mockup2data⟩

end Runs

/-! ## A stale verdict in exact arithmetic -/

/-- Rational arithmetic, with roots exact on squares. -/
instance : FloatingPoint ℚ where
  sqrt := Rat.sqrt
  zero_beq_zero := by decide

/-- Ties stay in the order of the samples, and behind the ranks lie ranks of this sample. -/
def memoryRuntime (sampleId : ℤ) : CppRuntime ℚ where
  sortRanks ranks := ranks.insertionSort fun a b => a.runtime ≤ b.runtime
  sortRanks_perm := List.perm_insertionSort _
  sortRanks_sorted ranks := by
    have : Std.Total fun a b : RankElement ℚ => a.runtime ≤ b.runtime :=
      ⟨fun a b => le_total a.runtime b.runtime⟩
    have : IsTrans (RankElement ℚ) fun a b => a.runtime ≤ b.runtime :=
      ⟨fun _ _ _ => le_trans⟩
    exact (List.pairwise_insertionSort _ ranks).imp not_lt.mpr
  pastEnd i := { runtime := i + 1000, sampleId := sampleId }

/-- The runtime of all calls where it does not matter what they find. -/
def stableRuntime : CppRuntime ℚ := memoryRuntime 0

/-- Six default runtimes, and alternatives faster and slower than all of them. -/
def defaultRuntimes : List ℚ := [10, 11, 12, 13, 14, 15]
def fasterRuntimes : List ℚ := [1, 2]
def slowerRuntimes : List ℚ := [20, 21]

/-- Asking twice about the same alternative is safe, whatever the memory holds. -/
theorem verdicts_depend_on_samples_twice :
    ∃ s, (Session.start defaultRuntimes .wilcoxonRankSum).run
        [(memoryRuntime 1, .getViolation fasterRuntimes)] = some s ∧
      s.data.verdict (memoryRuntime 2) fasterRuntimes =
        (ComparerData.create defaultRuntimes .wilcoxonRankSum).verdict stableRuntime
          fasterRuntimes := by
  have hrun : ((Session.start defaultRuntimes .wilcoxonRankSum).run
      [(memoryRuntime 1, .getViolation fasterRuntimes)]).isSome := by decide +kernel
  obtain ⟨s, hs⟩ := Option.isSome_iff_exists.mp hrun
  refine ⟨s, hs, (verdicts_depend_on_samples .wilcoxonRankSum).1 defaultRuntimes
    [(memoryRuntime 1, .getViolation fasterRuntimes)] (memoryRuntime 2) stableRuntime
    fasterRuntimes s ?_ hs⟩
  refine ⟨Or.inr ⟨rfl, Or.inl zero_bne_zero⟩, fun s' hstep => ⟨Or.inr ⟨?_, Or.inr ?_⟩,
    fun _ _ => trivial⟩⟩
  · exact ((sessionInv_start _ _).step hstep).kind_eq
  · rw [Session.step_zAlt hstep]
    rfl

/-- After the faster alternative the slower one is reported as a violation too, by the
object and by the grouped comparer, though a fresh object and the detailed comparer report
none. With the Mann-Whitney test fresh objects disagree already, by what they find behind the
ranks of the same samples. -/
theorem slower_inherits_violation :
    (∃ s, (Session.start defaultRuntimes .wilcoxonRankSum).run
        [(stableRuntime, .getViolation fasterRuntimes)] = some s ∧
      s.data.verdict stableRuntime slowerRuntimes ≠
        (ComparerData.create defaultRuntimes .wilcoxonRankSum).verdict stableRuntime
          slowerRuntimes) ∧
    groupedVerdicts (fun _ _ => stableRuntime) .wilcoxonRankSum [(1, defaultRuntimes)]
        [("fast", [(1, fasterRuntimes)]), ("slow", [(1, slowerRuntimes)])] ≠
      detailedVerdicts (fun _ _ => stableRuntime) .wilcoxonRankSum [(1, defaultRuntimes)]
        [("fast", [(1, fasterRuntimes)]), ("slow", [(1, slowerRuntimes)])] ∧
    (ComparerData.create slowerRuntimes .wilcoxonMannWhitney).verdict (memoryRuntime 1)
        defaultRuntimes = some true ∧
      (ComparerData.create slowerRuntimes .wilcoxonMannWhitney).verdict (memoryRuntime 2)
        defaultRuntimes = some false := by
  refine ⟨?_, by decide +kernel, by decide +kernel, by decide +kernel⟩
  have hstale : ((Session.start defaultRuntimes .wilcoxonRankSum).run
      [(stableRuntime, .getViolation fasterRuntimes)]).bind
        (fun s => s.data.verdict stableRuntime slowerRuntimes) = some true := by decide +kernel
  have hfresh : (ComparerData.create defaultRuntimes .wilcoxonRankSum).verdict stableRuntime
      slowerRuntimes = some false := by decide +kernel
  obtain ⟨s, hs, hv⟩ := Option.bind_eq_some_iff.mp hstale
  exact ⟨s, hs, by rw [hv, hfresh]; decide⟩

end ReproMPI.Pgcheck
