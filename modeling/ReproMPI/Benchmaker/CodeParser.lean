import Mathlib.Tactic
import ReproMPI.Benchmaker.BenchFunctionsGen
import ReproMPI.Benchmaker.ParseLine
import ReproMPI.Lib.FallibleLoop

/-!
# The annotations of a file

The first pass of `CodeParser` over a file: `parse_file` collects the annotations with a known
keyword, with their line numbers, and `process_data` collects from them the timers, the
variables and the configuration of every output.
-/

namespace ReproMPI.Benchmaker

open PythonText FallibleLoop

/-! ## Keywords -/

/-- The keys of `code_generators`. -/
inductive Keyword
  | initSync
  | startSync
  | stopSync
  | measureTimestamp
  | initializeBench
  | cleanupBench
  | printRuntimeArray
  | startMeasurementLoop
  | stopMeasurementLoop
  | initializeTimestamps
  | declareVariables
  | cleanupVariables
  | addIncludes
  | set
  | global
  deriving DecidableEq, Repr

def Keyword.text : Keyword → Str
  | initSync => "init_sync".toList
  | startSync => "start_sync".toList
  | stopSync => "stop_sync".toList
  | measureTimestamp => "measure_timestamp".toList
  | initializeBench => "initialize_bench".toList
  | cleanupBench => "cleanup_bench".toList
  | printRuntimeArray => "print_runtime_array".toList
  | startMeasurementLoop => "start_measurement_loop".toList
  | stopMeasurementLoop => "stop_measurement_loop".toList
  | initializeTimestamps => "initialize_timestamps".toList
  | declareVariables => "declare_variables".toList
  | cleanupVariables => "cleanup_variables".toList
  | addIncludes => "add_includes".toList
  | set => "set".toList
  | global => "global".toList

/-- `self.code_generators.keys()`. -/
def keywords : List Keyword :=
  [.initSync, .startSync, .stopSync, .measureTimestamp, .initializeBench, .cleanupBench,
    .printRuntimeArray, .startMeasurementLoop, .stopMeasurementLoop, .initializeTimestamps,
    .declareVariables, .cleanupVariables, .addIncludes, .set, .global]

/-- An annotation with a known keyword. -/
structure KnownTag where
  keyword : Keyword
  indent : ℕ
  data : OrderedDict Str Str
  deriving DecidableEq

/-- The annotation of a line if its keyword is known. -/
def lineTag (line : Str) : Option KnownTag := do
  let tag ← parseLine line
  let keyword ← keywords.find? fun keyword => keyword.text = tag.keyword
  some { keyword := keyword, indent := tag.indent, data := tag.data }

/-- An annotation and where it stands. -/
structure Annotation extends KnownTag where
  line : Str
  lineNo : ℕ

/-! ## `parse_file` -/

/-- A turn of the loop, on the line number and the annotations so far. -/
def parsePass (st : ℕ × List Annotation) (line : Str) : ℕ × List Annotation :=
  match lineTag line with
  | some tag => (st.1 + 1, st.2 ++ [{ toKnownTag := tag, line := line, lineNo := st.1 }])
  | none => (st.1 + 1, st.2)

/-- `self.annotations[self.file_name]` after `parse_file`. -/
def parseFile (lines : List Str) : List Annotation := (lines.foldl parsePass (1, [])).2

/-- The annotations of lines of which the first has the number `n`. -/
def annotationsFrom : ℕ → List Str → List Annotation
  | _, [] => []
  | n, line :: lines =>
    match lineTag line with
    | some tag => { toKnownTag := tag, line := line, lineNo := n } :: annotationsFrom (n + 1) lines
    | none => annotationsFrom (n + 1) lines

/-! ## `process_data` -/

/-- How a call ends if it does not return. -/
inductive Abort
  /-- `sys.exit`. -/
  | exit (message : Str)
  | assertionError
  | keyError
  | unboundLocalError
  | fileNotFoundError
  deriving DecidableEq, Repr

/-- The keys without a value: the names of timers. -/
def timerNames (data : OrderedDict Str Str) : List Str :=
  (data.items.filter fun e => e.2 = []).map Prod.fst

/-- `self.ts_arrays[file_name]`. -/
def tsArrays (tags : List KnownTag) : List Str :=
  tags.flatMap fun tag => if tag.keyword = .initializeTimestamps then timerNames tag.data else []

/-- `self.strings_array[file_name]`. -/
def stringsArray (tags : List KnownTag) : List Str :=
  tags.flatMap fun tag => if tag.keyword = .set then tag.data.keys else []

def runtimeComputationMethods : List Str := ["all".toList, "reduce".toList]

def runtimeComputationReductionOps : List Str := ["min".toList, "max".toList, "mean".toList]

/-- `output_config` while it is filled. -/
structure ConfigDraft where
  startTime : Option Str := none
  endTime : Option Str := none
  name : Option Str := none
  type : Option Str := none
  op : Option Str := none
  stringList : OrderedDict Str Str := .empty
  intList : OrderedDict Str Str := .empty

/-- A turn of the loop over the keys. -/
def ConfigDraft.add (strings : List Str) (draft : ConfigDraft) (e : Str × Str) :
    Except Abort ConfigDraft :=
  if e.1 = "start_time".toList then .ok { draft with startTime := some e.2 }
  else if e.1 = "end_time".toList then .ok { draft with endTime := some e.2 }
  else if e.1 = "name".toList then .ok { draft with name := some e.2 }
  else if e.1 = "type".toList then
    if e.2 ∈ runtimeComputationMethods then .ok { draft with type := some e.2 }
    else .error .assertionError
  else if e.1 = "op".toList then
    if e.2 ∈ runtimeComputationReductionOps then .ok { draft with op := some e.2 }
    else .error .assertionError
  else if e.2 ∈ strings then .ok { draft with stringList := draft.stringList.set e.1 e.2 }
  else .ok { draft with intList := draft.intList.set e.1 e.2 }

/-- A key without which the program exits. -/
def require (value : Option Str) (key : String) : Except Abort Str :=
  match value with
  | some x => .ok x
  | none =>
    .error (.exit
      (percent "Incorrect \"print_runtime_array\" specification (missing %s)".toList [key.toList]))

/-- The configuration that the data of an annotation give. -/
def outputConfig (strings : List Str) (data : OrderedDict Str Str) : Except Abort OutputConfig := do
  let draft ← data.items.foldlM (ConfigDraft.add strings) {}
  let startTime ← require draft.startTime "start_time"
  let endTime ← require draft.endTime "end_time"
  let name ← require draft.name "name"
  let type ← require draft.type "type"
  let op := if type = "reduce".toList then draft.op.getD "max".toList else []
  .ok
    { startTime := startTime, endTime := endTime, name := name, type := type, op := op,
      stringList := draft.stringList, intList := draft.intList }

/-- The configurations by line number. -/
abbrev ConfigTable := OrderedDict ℕ (List OutputConfig)

def addConfig (strings : List Str) (table : ConfigTable) (ann : Annotation) :
    Except Abort ConfigTable :=
  if ann.keyword = .printRuntimeArray then do
    let config ← outputConfig strings ann.data
    .ok (table.set ann.lineNo [config])
  else .ok table

/-- The fields of the object for its file. -/
structure CodeParser where
  annotations : List Annotation
  tsArrays : List Str
  stringsArray : List Str
  outputConfigList : ConfigTable

/-- `process_data`. -/
def processData (annotations : List Annotation) : Except Abort CodeParser := do
  let tags := annotations.map Annotation.toKnownTag
  let strings := Benchmaker.stringsArray tags
  let outputConfigList ← annotations.foldlM (addConfig strings) .empty
  .ok
    { annotations := annotations, tsArrays := Benchmaker.tsArrays tags, stringsArray := strings,
      outputConfigList := outputConfigList }

/-! ## The annotations, line by line -/

section Annotations

variable {n : ℕ} {line : Str} {lines : List Str} {tag : KnownTag} {a : Annotation}

theorem annotationsFrom_cons_of_none (htag : lineTag line = none) :
    annotationsFrom n (line :: lines) = annotationsFrom (n + 1) lines := by
  rw [annotationsFrom, htag]

theorem annotationsFrom_cons_of_some (htag : lineTag line = some tag) :
    annotationsFrom n (line :: lines) =
      { toKnownTag := tag, line := line, lineNo := n } :: annotationsFrom (n + 1) lines := by
  rw [annotationsFrom, htag]

theorem foldl_parsePass (n : ℕ) (annotations : List Annotation) (lines : List Str) :
    lines.foldl parsePass (n, annotations) =
      (n + lines.length, annotations ++ annotationsFrom n lines) := by
  induction lines generalizing n annotations with
  | nil => simp [annotationsFrom]
  | cons line lines ih =>
    rw [List.foldl_cons, parsePass, annotationsFrom]
    cases lineTag line with
    | none =>
      simp only [ih, List.length_cons]
      rw [Nat.add_right_comm, Nat.add_assoc]
    | some tag =>
      simp only [ih, List.length_cons, List.append_assoc, List.singleton_append]
      rw [Nat.add_right_comm, Nat.add_assoc]

theorem parseFile_eq (lines : List Str) : parseFile lines = annotationsFrom 1 lines := by
  rw [parseFile, foldl_parsePass, List.nil_append]

theorem map_toKnownTag_annotationsFrom (n : ℕ) (lines : List Str) :
    (annotationsFrom n lines).map Annotation.toKnownTag = lines.filterMap lineTag := by
  induction lines generalizing n with
  | nil => rfl
  | cons line lines ih =>
    cases htag : lineTag line with
    | none => rw [annotationsFrom_cons_of_none htag, List.filterMap_cons_none htag, ih]
    | some tag =>
      rw [annotationsFrom_cons_of_some htag, List.filterMap_cons_some htag, List.map_cons, ih]

theorem le_lineNo (h : a ∈ annotationsFrom n lines) : n ≤ a.lineNo := by
  induction lines generalizing n with
  | nil => cases h
  | cons line lines ih =>
    rw [annotationsFrom] at h
    split at h
    · rcases List.mem_cons.mp h with rfl | h
      · exact le_rfl
      · exact (Nat.le_succ n).trans (ih h)
    · exact (Nat.le_succ n).trans (ih h)

theorem pairwise_lineNo (n : ℕ) (lines : List Str) :
    (annotationsFrom n lines).Pairwise fun a b => a.lineNo < b.lineNo := by
  induction lines generalizing n with
  | nil => exact .nil
  | cons line lines ih =>
    rw [annotationsFrom]
    split
    · exact List.pairwise_cons.mpr ⟨fun b hb => le_lineNo hb, ih (n + 1)⟩
    · exact ih (n + 1)

/-- No key of an annotation is empty. -/
theorem key_ne_nil_of_lineTag (h : lineTag line = some tag) {k : Str}
    (hk : k ∈ tag.data.keys) : k ≠ [] := by
  obtain ⟨raw, hraw, h⟩ := Option.bind_eq_some_iff.mp h
  obtain ⟨keyword, -, h⟩ := Option.bind_eq_some_iff.mp h
  obtain rfl := Option.some.inj h
  exact key_ne_nil_of_parseLine hraw hk

end Annotations

/-! ## The configurations -/

section Config

variable {strings : List Str} {data : OrderedDict Str Str} {items : List (Str × Str)}
  {draft draft' : ConfigDraft} {config : OutputConfig}

/-- Only the key `name` sets the name. -/
theorem ConfigDraft.name_add {e : Str × Str} (h : draft.add strings e = .ok draft') :
    draft'.name = draft.name ∨ e.1 = "name".toList ∧ draft'.name = some e.2 := by
  by_cases hname : e.1 = "name".toList
  · right
    have hstart : e.1 ≠ "start_time".toList := by simp [hname]
    have hend : e.1 ≠ "end_time".toList := by simp [hname]
    rw [ConfigDraft.add, if_neg hstart, if_neg hend, if_pos hname] at h
    obtain rfl := Except.ok.inj h
    exact ⟨hname, rfl⟩
  · left
    rw [ConfigDraft.add, if_neg hname] at h
    split_ifs at h
    all_goals
      cases h
      try rfl

theorem ConfigDraft.name_foldlM (h : items.foldlM (ConfigDraft.add strings) draft = .ok draft')
    {x : Str} (hname : draft'.name = some x) :
    draft.name = some x ∨ ("name".toList, x) ∈ items := by
  induction items generalizing draft with
  | nil =>
    obtain rfl := Except.ok.inj h
    exact .inl hname
  | cons e items ih =>
    obtain ⟨next, hadd, hrest⟩ := bind_eq_ok_iff.mp h
    rcases ih hrest with hnext | hmem
    · rcases ConfigDraft.name_add hadd with heq | ⟨hkey, heq⟩
      · exact .inl (heq ▸ hnext)
      · right
        have hvalue : e.2 = x := Option.some.inj (heq.symm.trans hnext)
        rw [← hkey, ← hvalue]
        exact List.mem_cons_self
    · exact .inr (List.mem_cons_of_mem _ hmem)

theorem require_eq_ok_iff {value : Option Str} {key : String} {x : Str} :
    require value key = .ok x ↔ value = some x := by
  cases value with
  | none => simp [require]
  | some y => simp [require]

/-- The name of a configuration is the value of the key. -/
theorem get?_name_of_outputConfig (h : outputConfig strings data = .ok config) :
    data.get? "name".toList = some config.name := by
  obtain ⟨draft, hdraft, h⟩ := bind_eq_ok_iff.mp h
  obtain ⟨startTime, -, h⟩ := bind_eq_ok_iff.mp h
  obtain ⟨endTime, -, h⟩ := bind_eq_ok_iff.mp h
  obtain ⟨name, hname, h⟩ := bind_eq_ok_iff.mp h
  obtain ⟨type, -, h⟩ := bind_eq_ok_iff.mp h
  obtain rfl := Except.ok.inj h
  rcases ConfigDraft.name_foldlM hdraft (require_eq_ok_iff.mp hname) with hnone | hmem
  · cases hnone
  · exact OrderedDict.get?_eq_some_iff.mpr hmem

end Config

/-! ## The table of configurations -/

section Table

variable {strings : List Str} {annotations : List Annotation} {table table' : ConfigTable}
  {a : Annotation}

/-- The configuration of an output stands in the table under its line. -/
def Listed (strings : List Str) (table : ConfigTable) (a : Annotation) : Prop :=
  a.keyword = .printRuntimeArray →
    ∃ config, outputConfig strings a.data = .ok config ∧ table.get? a.lineNo = some [config]

/-- An annotation changes the entry of its own line only. -/
theorem get?_addConfig (h : addConfig strings table a = .ok table') {k : ℕ} (hk : k ≠ a.lineNo) :
    table'.get? k = table.get? k := by
  rw [addConfig] at h
  split at h
  · obtain ⟨config, -, h⟩ := bind_eq_ok_iff.mp h
    obtain rfl := Except.ok.inj h
    exact OrderedDict.get?_set_of_ne hk
  · obtain rfl := Except.ok.inj h
    rfl

theorem listed_addConfig (h : addConfig strings table a = .ok table') :
    Listed strings table' a := by
  intro hprint
  rw [addConfig, if_pos hprint] at h
  obtain ⟨config, hconfig, h⟩ := bind_eq_ok_iff.mp h
  obtain rfl := Except.ok.inj h
  exact ⟨config, hconfig, OrderedDict.get?_set_self _ _ _⟩

theorem get?_foldlM_addConfig (h : annotations.foldlM (addConfig strings) table = .ok table')
    {k : ℕ} (hk : ∀ a ∈ annotations, k ≠ a.lineNo) : table'.get? k = table.get? k := by
  induction annotations generalizing table with
  | nil =>
    obtain rfl := Except.ok.inj h
    rfl
  | cons a annotations ih =>
    obtain ⟨next, hadd, hrest⟩ := bind_eq_ok_iff.mp h
    rw [ih hrest fun b hb => hk b (List.mem_cons_of_mem _ hb),
      get?_addConfig hadd (hk a List.mem_cons_self)]

/-- Lines with increasing numbers do not overwrite one another. -/
theorem listed_foldlM_addConfig (h : annotations.foldlM (addConfig strings) table = .ok table')
    (hlines : annotations.Pairwise fun a b => a.lineNo < b.lineNo) (ha : a ∈ annotations) :
    Listed strings table' a := by
  induction annotations generalizing table with
  | nil => cases ha
  | cons b annotations ih =>
    obtain ⟨next, hadd, hrest⟩ := bind_eq_ok_iff.mp h
    obtain ⟨hfirst, hlines⟩ := List.pairwise_cons.mp hlines
    rcases List.mem_cons.mp ha with rfl | ha
    · have hkept := get?_foldlM_addConfig hrest fun c hc => (hfirst c hc).ne
      intro hprint
      rw [hkept]
      exact listed_addConfig hadd hprint
    · exact ih hrest hlines ha

/-- The loop ends if every output has a configuration. -/
theorem foldlM_addConfig_isOk (h : ∀ a ∈ annotations, a.keyword = .printRuntimeArray →
    ∃ config, outputConfig strings a.data = .ok config) (table : ConfigTable) :
    ∃ table', annotations.foldlM (addConfig strings) table = .ok table' := by
  induction annotations generalizing table with
  | nil => exact ⟨table, rfl⟩
  | cons a annotations ih =>
    have hadd : ∃ next, addConfig strings table a = .ok next := by
      rw [addConfig]
      split
      · next hprint =>
        obtain ⟨config, hconfig⟩ := h a List.mem_cons_self hprint
        exact ⟨_, bind_eq_ok_iff.mpr ⟨config, hconfig, rfl⟩⟩
      · exact ⟨table, rfl⟩
    obtain ⟨next, hadd⟩ := hadd
    obtain ⟨table', hrest⟩ := ih (fun b hb => h b (List.mem_cons_of_mem _ hb)) next
    exact ⟨table', bind_eq_ok_iff.mpr ⟨next, hadd, hrest⟩⟩

end Table

end ReproMPI.Benchmaker
