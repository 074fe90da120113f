import Mathlib.Tactic
import ReproMPI.Benchmaker.CodeParser
import ReproMPI.Lib.Insertion
import ReproMPI.Lib.Lookahead

/-!
# The output file

The second pass of `CodeParser` over a file: `generate_output_file` keeps every line and puts
the block of an annotation behind its line. The annotations of the first pass are consumed one
by one, by an index and a variable for the next one; they belong to the lines still to be read.
-/

namespace ReproMPI.Benchmaker

open PythonText FallibleLoop Insertion

/-! ## The code of an annotation -/

/-- The first key without a value, or `""`. -/
def tsName (data : OrderedDict Str Str) : Str :=
  match data.items.find? fun e => e.2 = [] with
  | some e => e.1
  | none => []

def annotationError (line : Str) : Abort :=
  .exit (percent "Error: incorrect annotation - %s".toList [line])

/-- The branch of the annotations that name a timer. -/
def timerCode (generator : Str → ℕ → Str) (ann : Annotation) : Except Abort (Option Str) :=
  if 0 < (tsName ann.data).length then .ok (some (generator (tsName ann.data) ann.indent))
  else .error (annotationError ann.line)

/-- A turn of the loop over the configurations of a line. -/
def printCode (ann : Annotation) (code : Option Str) (outputConfig : OutputConfig) :
    Except Abort (Option Str) :=
  match ann.data.get? "name".toList with
  | some name =>
    .ok (if outputConfig.name = name then some (generatePrintOutput outputConfig ann.indent)
      else code)
  | none => .error .keyError

/-- The value of the variable `code` behind the branches; the loop over the configurations may
leave the one it had. -/
def generateCode (sets : SetOrder) (cp : CodeParser) (lineNo : ℕ) (ann : Annotation)
    (code : Option Str) : Except Abort (Option Str) :=
  match ann.keyword with
  | .printRuntimeArray =>
    match cp.outputConfigList.get? lineNo with
    | some outputConfigL => outputConfigL.foldlM (printCode ann) code
    | none => .error .keyError
  | .initializeTimestamps => timerCode generateInitTimestampArray ann
  | .measureTimestamp => timerCode generateMeasureTimestamp ann
  | .stopMeasurementLoop => .ok (some (generateStopMeasurementLoop ann.indent))
  | .declareVariables =>
    let mainFile := cp.annotations.any fun a => a.keyword = .initializeBench
    .ok (some (generateDeclareVariables sets mainFile cp.tsArrays cp.stringsArray ann.indent))
  | .cleanupVariables =>
    .ok (some (generateCleanupVariables sets cp.tsArrays cp.stringsArray ann.indent))
  | .global => .ok (some (generateAddToDictionary ann.data ann.indent))
  | .set => .ok (some (generateSetVariable ann.data ann.indent))
  | .startMeasurementLoop => .ok (some (generateStartMeasurementLoop ann.indent))
  | .initSync => .ok (some (generateInitSync ann.indent))
  | .startSync => .ok (some (generateStartSync ann.indent))
  | .stopSync => .ok (some (generateStopSync ann.indent))
  | .initializeBench => .ok (some (generateInitBench ann.indent))
  | .cleanupBench => .ok (some (generateCleanupBench ann.indent))
  | .addIncludes => .ok (some (generateAddIncludes ann.indent))

/-! ## `generate_output_file` -/

/-- The variables of the loop. -/
structure Scan where
  ahead : Lookahead Annotation
  code : Option Str
  generatedCode : List Str
  lineNo : ℕ

def Scan.start : Scan := { ahead := .start, code := none, generatedCode := [], lineNo := 1 }

/-- A turn of the loop over the lines. -/
def scanLine (sets : SetOrder) (cp : CodeParser) (st : Scan) (line : Str) : Except Abort Scan :=
  let generatedCode := st.generatedCode ++ [line]
  let ahead := st.ahead.fetch cp.annotations
  match ahead.current.filter fun ann => st.lineNo = ann.lineNo with
  | some ann => do
    let code ← generateCode sets cp st.lineNo ann st.code
    match code with
    | some block =>
      .ok
        { ahead := ahead.clear, code := code, generatedCode := generatedCode ++ [block],
          lineNo := st.lineNo + 1 }
    | none => .error .unboundLocalError
  | none =>
    .ok { st with ahead := ahead, generatedCode := generatedCode, lineNo := st.lineNo + 1 }

/-- The lines of a file; `fopen` gives the text of the files that can be read. -/
def openFile (fopen : Str → Option Str) (fileName : Str) : Except Abort (List Str) :=
  match fopen fileName with
  | some text => .ok (fileLines text)
  | none => .error .fileNotFoundError

/-- `generate_output_file`; the file is opened once for each pass. -/
def generateOutputFile (sets : SetOrder) (fopen : Str → Option Str) (fileName : Str) :
    Except Abort (List Str) := do
  let lines ← openFile fopen fileName
  let cp ← processData (parseFile lines)
  let lines ← openFile fopen fileName
  let st ← lines.foldlM (scanLine sets cp) .start
  .ok st.generatedCode

/-! ## The block of an annotation -/

/-- What a block may depend on besides its annotation. -/
structure FileVars where
  mainFile : Bool
  tsArrays : List Str
  stringsArray : List Str

/-- The variables of a file with these annotations. -/
def fileVars (tags : List KnownTag) : FileVars :=
  { mainFile := tags.any fun tag => tag.keyword = .initializeBench
    tsArrays := tsArrays tags
    stringsArray := stringsArray tags }

/-- The block that belongs to an annotation. An output needs a complete configuration and a
timer needs a name. -/
def block (sets : SetOrder) (vars : FileVars) (tag : KnownTag) : Option Str :=
  match tag.keyword with
  | .initSync => some (generateInitSync tag.indent)
  | .startSync => some (generateStartSync tag.indent)
  | .stopSync => some (generateStopSync tag.indent)
  | .measureTimestamp =>
    (timerNames tag.data).head?.map fun name => generateMeasureTimestamp name tag.indent
  | .initializeBench => some (generateInitBench tag.indent)
  | .cleanupBench => some (generateCleanupBench tag.indent)
  | .printRuntimeArray =>
    (outputConfig vars.stringsArray tag.data).toOption.map fun config =>
      generatePrintOutput config tag.indent
  | .startMeasurementLoop => some (generateStartMeasurementLoop tag.indent)
  | .stopMeasurementLoop => some (generateStopMeasurementLoop tag.indent)
  | .initializeTimestamps =>
    (timerNames tag.data).head?.map fun name => generateInitTimestampArray name tag.indent
  | .declareVariables =>
    some (generateDeclareVariables sets vars.mainFile vars.tsArrays vars.stringsArray tag.indent)
  | .cleanupVariables =>
    some (generateCleanupVariables sets vars.tsArrays vars.stringsArray tag.indent)
  | .addIncludes => some (generateAddIncludes tag.indent)
  | .set => some (generateSetVariable tag.data tag.indent)
  | .global => some (generateAddToDictionary tag.data tag.indent)

/-- The order of a set changes the order of statements in a block, and nothing else. -/
theorem block_reordered (sets sets' : SetOrder) (vars : FileVars) (tag : KnownTag) {b : Str}
    (h : block sets vars tag = some b) :
    ∃ b', block sets' vars tag = some b' ∧ Reordered b b' := by
  cases hkeyword : tag.keyword with
  | declareVariables =>
    simp only [block, hkeyword, Option.some.injEq] at h ⊢
    rw [← h]
    exact ⟨_, rfl, generateDeclareVariables_reordered _ _ _ _ _ _⟩
  | cleanupVariables =>
    simp only [block, hkeyword, Option.some.injEq] at h ⊢
    rw [← h]
    exact ⟨_, rfl, generateCleanupVariables_reordered _ _ _ _ _⟩
  | _ =>
    refine ⟨b, ?_, .same b⟩
    rw [← h]
    simp only [block, hkeyword]

/-! ## The code is the block -/

section Code

variable {sets : SetOrder} {lines : List Str} {cp : CodeParser} {ann : Annotation}

/-- The code of a branch for an annotation: its block, or the exit of the timers. -/
def codeOf (ann : Annotation) (block : Option Str) : Except Abort (Option Str) :=
  match block with
  | some b => .ok (some b)
  | none => .error (annotationError ann.line)

/-- A name that is not empty is found exactly if there is one. -/
theorem timerCode_eq (generator : Str → ℕ → Str) (hkeys : ∀ k ∈ ann.data.keys, k ≠ []) :
    timerCode generator ann =
      codeOf ann ((timerNames ann.data).head?.map fun name => generator name ann.indent) := by
  have hhead : (timerNames ann.data).head? =
      (ann.data.items.find? fun e => e.2 = []).map Prod.fst := by
    rw [timerNames, List.head?_map, List.head?_filter]
  rw [timerCode, tsName, hhead]
  cases hfind : ann.data.items.find? fun e => e.2 = [] with
  | none => rfl
  | some e =>
    have hkey : e.1 ≠ [] := hkeys _ (List.mem_map_of_mem (List.mem_of_find?_eq_some hfind))
    rw [if_pos (List.length_pos_iff.mpr hkey)]
    rfl

/-- The one configuration in the table has the name that the annotation gives. -/
theorem printCode_eq {strings : List Str} {config : OutputConfig}
    (h : outputConfig strings ann.data = .ok config) (code : Option Str) :
    [config].foldlM (printCode ann) code = .ok (some (generatePrintOutput config ann.indent)) := by
  rw [List.foldlM_cons, printCode, get?_name_of_outputConfig h]
  simp only [if_true]
  rfl

/-- What the first pass leaves in the object. -/
theorem processData_eq_ok_iff {annotations : List Annotation} :
    processData annotations = .ok cp ↔
      ∃ table,
        annotations.foldlM (addConfig (stringsArray (annotations.map Annotation.toKnownTag)))
          .empty = .ok table ∧
        cp =
          { annotations := annotations
            tsArrays := tsArrays (annotations.map Annotation.toKnownTag)
            stringsArray := stringsArray (annotations.map Annotation.toKnownTag)
            outputConfigList := table } := by
  rw [processData]
  constructor
  · intro h
    obtain ⟨table, htable, h⟩ := bind_eq_ok_iff.mp h
    exact ⟨table, htable, (Except.ok.inj h).symm⟩
  · rintro ⟨table, htable, rfl⟩
    exact bind_eq_ok_iff.mpr ⟨table, htable, rfl⟩

/-- The variables of the file with these lines. -/
def varsOf (lines : List Str) : FileVars := fileVars (lines.filterMap lineTag)

theorem exists_lineTag_of_mem {n : ℕ} (h : ann ∈ annotationsFrom n lines) :
    ∃ line, lineTag line = some ann.toKnownTag := by
  have hmem := List.mem_map_of_mem (f := Annotation.toKnownTag) h
  rw [map_toKnownTag_annotationsFrom] at hmem
  obtain ⟨line, -, htag⟩ := List.mem_filterMap.mp hmem
  exact ⟨line, htag⟩

/-- The second pass makes the block of an annotation of the first one, whatever code stands
there before. -/
theorem generateCode_eq (sets : SetOrder) (hcp : processData (parseFile lines) = .ok cp)
    (hann : ann ∈ cp.annotations) (code : Option Str) :
    generateCode sets cp ann.lineNo ann code =
      codeOf ann (block sets (varsOf lines) ann.toKnownTag) := by
  rw [parseFile_eq] at hcp
  obtain ⟨table, htable, rfl⟩ := processData_eq_ok_iff.mp hcp
  have hlisted := listed_foldlM_addConfig htable (pairwise_lineNo 1 lines) hann
  obtain ⟨line, htag⟩ := exists_lineTag_of_mem hann
  have hkeys := fun k hk => key_ne_nil_of_lineTag htag (k := k) hk
  have hmain : (annotationsFrom 1 lines).any (fun a => a.keyword = .initializeBench) =
      (lines.filterMap lineTag).any fun tag => tag.keyword = .initializeBench := by
    rw [← map_toKnownTag_annotationsFrom 1 lines, List.any_map]
    rfl
  rw [map_toKnownTag_annotationsFrom] at hlisted
  rw [generateCode, block, map_toKnownTag_annotationsFrom]
  cases hkeyword : ann.keyword with
  | printRuntimeArray =>
    obtain ⟨config, hconfig, hget⟩ := hlisted hkeyword
    simp only [varsOf, fileVars, hconfig, hget]
    exact printCode_eq hconfig code
  | initializeTimestamps => exact timerCode_eq _ hkeys
  | measureTimestamp => exact timerCode_eq _ hkeys
  | declareVariables =>
    simp only [hmain]
    rfl
  | _ => rfl

end Code

/-! ## The loop over the lines -/

section Loop

variable {sets : SetOrder} {file lines : List Str} {line : Str} {cp : CodeParser} {st st' : Scan}
  {tag : KnownTag} {generated : List Str}

/-- The annotations that are still to be used are those of the lines still to be read. -/
structure Aligned (cp : CodeParser) (lines : List Str) (st : Scan) : Prop where
  pending_eq : st.ahead.pending cp.annotations = annotationsFrom st.lineNo lines
  subset : annotationsFrom st.lineNo lines ⊆ cp.annotations

theorem aligned_start (hcp : processData (parseFile lines) = .ok cp) :
    Aligned cp lines .start := by
  rw [parseFile_eq] at hcp
  obtain ⟨table, -, rfl⟩ := processData_eq_ok_iff.mp hcp
  exact { pending_eq := Lookahead.pending_start _, subset := List.Subset.refl _ }

/-- The annotation that a turn uses is the one of its line. -/
theorem filter_fetch (h : Aligned cp (line :: lines) st) :
    (st.ahead.fetch cp.annotations).current.filter (fun ann => st.lineNo = ann.lineNo) =
      (lineTag line).map fun tag =>
        { toKnownTag := tag, line := line, lineNo := st.lineNo } := by
  rw [Lookahead.current_fetch, h.pending_eq, annotationsFrom]
  cases lineTag line with
  | some tag =>
    rw [List.head?_cons, Option.filter_some]
    simp
  | none =>
    -- what waits belongs to a later line
    rw [Option.map_none, Option.filter_eq_none_iff]
    intro ann hann
    have hlater := le_lineNo (List.mem_of_head? hann)
    simp only [decide_eq_true_eq]
    omega

/-- At a line without an annotation the next annotation waits. -/
theorem scanLine_plain (sets : SetOrder) (h : Aligned cp (line :: lines) st)
    (htag : lineTag line = none) :
    ∃ next, scanLine sets cp st line = .ok next ∧ Aligned cp lines next ∧
      next.generatedCode = st.generatedCode ++ [line] := by
  have hpending := Lookahead.pending_fetch cp.annotations st.ahead
  have hsubset := h.subset
  rw [h.pending_eq, annotationsFrom_cons_of_none htag] at hpending
  rw [annotationsFrom_cons_of_none htag] at hsubset
  rw [scanLine, filter_fetch h, htag, Option.map_none]
  exact ⟨_, rfl, { pending_eq := hpending, subset := hsubset }, rfl⟩

/-- At a line with an annotation the code is its block. -/
theorem generateCode_of_aligned (sets : SetOrder) (hcp : processData (parseFile file) = .ok cp)
    (h : Aligned cp (line :: lines) st) (htag : lineTag line = some tag) :
    generateCode sets cp st.lineNo { toKnownTag := tag, line := line, lineNo := st.lineNo }
        st.code =
      codeOf { toKnownTag := tag, line := line, lineNo := st.lineNo }
        (block sets (varsOf file) tag) := by
  refine generateCode_eq sets hcp (h.subset ?_) st.code
  rw [annotationsFrom_cons_of_some htag]
  exact List.mem_cons_self

/-- The block follows the line, and the annotation has been used. -/
theorem scanLine_tagged (hcp : processData (parseFile file) = .ok cp)
    (h : Aligned cp (line :: lines) st) (htag : lineTag line = some tag) {b : Str}
    (hblock : block sets (varsOf file) tag = some b) :
    ∃ next, scanLine sets cp st line = .ok next ∧ Aligned cp lines next ∧
      next.generatedCode = st.generatedCode ++ [line, b] := by
  have hcode := generateCode_of_aligned sets hcp h htag
  rw [hblock, codeOf] at hcode
  have hpending := Lookahead.pending_clear_fetch cp.annotations st.ahead
  have hsubset := h.subset
  rw [h.pending_eq, annotationsFrom_cons_of_some htag, List.tail_cons] at hpending
  rw [annotationsFrom_cons_of_some htag] at hsubset
  rw [scanLine, filter_fetch h, htag, Option.map_some]
  simp only [hcode]
  refine ⟨_, rfl, { pending_eq := hpending, subset := ?_ }, ?_⟩
  · exact fun a ha => hsubset (List.mem_cons_of_mem _ ha)
  · rw [List.append_assoc, List.singleton_append]

/-- Without a block the call exits. -/
theorem scanLine_error (hcp : processData (parseFile file) = .ok cp)
    (h : Aligned cp (line :: lines) st) (htag : lineTag line = some tag)
    (hblock : block sets (varsOf file) tag = none) :
    scanLine sets cp st line = .error (annotationError line) := by
  have hcode := generateCode_of_aligned sets hcp h htag
  rw [hblock, codeOf] at hcode
  rw [scanLine, filter_fetch h, htag, Option.map_some]
  simp only [hcode]
  rfl

/-- The loop appends the lines with their blocks, if there are all of these. -/
theorem foldlM_scanLine_iff (hcp : processData (parseFile file) = .ok cp)
    (h : Aligned cp lines st) :
    (∃ st', lines.foldlM (scanLine sets cp) st = .ok st' ∧ st'.generatedCode = generated) ↔
      ∃ out, Inserted lineTag (block sets (varsOf file)) lines out ∧
        generated = st.generatedCode ++ out := by
  induction lines generalizing st with
  | nil =>
    constructor
    · rintro ⟨st', hst', rfl⟩
      obtain rfl := Except.ok.inj hst'
      exact ⟨[], .nil, (List.append_nil _).symm⟩
    · rintro ⟨out, hout, rfl⟩
      rw [inserted_nil_iff.mp hout, List.append_nil]
      exact ⟨st, rfl, rfl⟩
  | cons line lines ih =>
    rw [List.foldlM_cons]
    cases htag : lineTag line with
    | none =>
      obtain ⟨next, hstep, halign, hnext⟩ := scanLine_plain sets h htag
      rw [hstep]
      refine (ih halign).trans ?_
      simp only [inserted_cons_iff_of_none htag, hnext]
      constructor
      · rintro ⟨out, hout, rfl⟩
        exact ⟨line :: out, ⟨out, hout, rfl⟩, by simp⟩
      · rintro ⟨_, ⟨out, hout, rfl⟩, rfl⟩
        exact ⟨out, hout, by simp⟩
    | some tag =>
      simp only [inserted_cons_iff_of_some htag]
      cases hblock : block sets (varsOf file) tag with
      | none =>
        rw [scanLine_error hcp h htag hblock]
        constructor
        · rintro ⟨st', hst', -⟩
          cases hst'
        · rintro ⟨_, ⟨b, _, hb, -⟩, -⟩
          cases hb
      | some b =>
        obtain ⟨next, hstep, halign, hnext⟩ := scanLine_tagged hcp h htag hblock
        rw [hstep]
        refine (ih halign).trans ?_
        rw [hnext]
        constructor
        · rintro ⟨out, hout, rfl⟩
          exact ⟨line :: b :: out, ⟨b, out, rfl, hout, rfl⟩, by simp⟩
        · rintro ⟨_, ⟨b', out, hb', hout, rfl⟩, rfl⟩
          obtain rfl := Option.some.inj hb'
          exact ⟨out, hout, by simp⟩

end Loop

/-! ## The whole file -/

section Output

variable {sets : SetOrder} {fopen : Str → Option Str} {fileName text : Str}
  {generated : List Str}

/-- The first pass succeeds if every annotation has its block. -/
theorem processData_isOk {lines : List Str}
    (h : ∀ tag ∈ lines.filterMap lineTag, ∃ b, block sets (varsOf lines) tag = some b) :
    ∃ cp, processData (parseFile lines) = .ok cp := by
  rw [parseFile_eq]
  have hconfig : ∀ ann ∈ annotationsFrom 1 lines, ann.keyword = .printRuntimeArray →
      ∃ config, outputConfig (varsOf lines).stringsArray ann.data = .ok config := by
    intro ann hann hprint
    have hmem := List.mem_map_of_mem (f := Annotation.toKnownTag) hann
    rw [map_toKnownTag_annotationsFrom] at hmem
    obtain ⟨b, hb⟩ := h _ hmem
    rw [block, hprint] at hb
    cases hconfig : outputConfig (varsOf lines).stringsArray ann.data with
    | ok config => exact ⟨config, rfl⟩
    | error e =>
      rw [hconfig] at hb
      cases hb
  obtain ⟨table, htable⟩ := foldlM_addConfig_isOk hconfig .empty
  refine ⟨_, processData_eq_ok_iff.mpr ⟨table, ?_, rfl⟩⟩
  rw [map_toKnownTag_annotationsFrom]
  exact htable

theorem openFile_eq_ok_iff {lines : List Str} :
    openFile fopen fileName = .ok lines ↔
      ∃ text, fopen fileName = some text ∧ lines = fileLines text := by
  rw [openFile]
  cases fopen fileName with
  | none => simp
  | some text => simp [eq_comm]

/-- A call that returns, as the two passes. -/
theorem generateOutputFile_eq_ok_iff :
    generateOutputFile sets fopen fileName = .ok generated ↔
      ∃ text, fopen fileName = some text ∧
        ∃ cp, processData (parseFile (fileLines text)) = .ok cp ∧
          ∃ st, (fileLines text).foldlM (scanLine sets cp) .start = .ok st ∧
            st.generatedCode = generated := by
  rw [generateOutputFile]
  constructor
  · intro h
    obtain ⟨lines, hopen, h⟩ := bind_eq_ok_iff.mp h
    obtain ⟨cp, hcp, h⟩ := bind_eq_ok_iff.mp h
    obtain ⟨lines', hopen', h⟩ := bind_eq_ok_iff.mp h
    obtain ⟨st, hst, hreturn⟩ := bind_eq_ok_iff.mp h
    obtain rfl := Except.ok.inj (hopen.symm.trans hopen')
    obtain ⟨text, htext, rfl⟩ := openFile_eq_ok_iff.mp hopen
    exact ⟨text, htext, cp, hcp, st, hst, Except.ok.inj hreturn⟩
  · rintro ⟨text, htext, cp, hcp, st, hst, rfl⟩
    have hopen : openFile fopen fileName = .ok (fileLines text) :=
      openFile_eq_ok_iff.mpr ⟨text, htext, rfl⟩
    exact bind_eq_ok_iff.mpr ⟨_, hopen, bind_eq_ok_iff.mpr ⟨cp, hcp,
      bind_eq_ok_iff.mpr ⟨_, hopen, bind_eq_ok_iff.mpr ⟨st, hst, rfl⟩⟩⟩⟩

theorem inserted_of_generateOutputFile
    (h : generateOutputFile sets fopen fileName = .ok generated) :
    ∃ text, fopen fileName = some text ∧
      Inserted lineTag (block sets (varsOf (fileLines text))) (fileLines text) generated := by
  obtain ⟨text, htext, cp, hcp, hloop⟩ := generateOutputFile_eq_ok_iff.mp h
  obtain ⟨out, hout, rfl⟩ := (foldlM_scanLine_iff hcp (aligned_start hcp)).mp hloop
  exact ⟨text, htext, hout⟩

theorem generateOutputFile_of_inserted (htext : fopen fileName = some text)
    (h : Inserted lineTag (block sets (varsOf (fileLines text))) (fileLines text) generated) :
    generateOutputFile sets fopen fileName = .ok generated := by
  obtain ⟨cp, hcp⟩ := processData_isOk fun tag htag => h.block_isSome htag
  have hloop := (foldlM_scanLine_iff hcp (aligned_start hcp)).mpr ⟨generated, h, rfl⟩
  exact generateOutputFile_eq_ok_iff.mpr ⟨text, htext, cp, hcp, hloop⟩

/-- The generator only inserts code: a call returns a list exactly if it consists of the lines of
the file with the block of its annotation behind every line that has one. -/
theorem generateOutputFile_inserts (sets : SetOrder) (fopen : Str → Option Str)
    (fileName : Str) (generated : List Str) :
    generateOutputFile sets fopen fileName = .ok generated ↔
      ∃ text, fopen fileName = some text ∧
        Inserted lineTag (block sets (varsOf (fileLines text))) (fileLines text) generated := by
  constructor
  · exact inserted_of_generateOutputFile
  · rintro ⟨text, htext, h⟩
    exact generateOutputFile_of_inserted htext h

/-- The variable `a` is set twice, and freed once. -/
theorem generateOutputFile_inserts_cleanup :
    ∃ text, some "//@ set a=b\n //@ set a=c\nx;\n//@ cleanup_variables\n".toList = some text ∧
      Inserted lineTag (block .dedup (varsOf (fileLines text))) (fileLines text)
        ["//@ set a=b\n".toList, "a = strdup(b);\n".toList, " //@ set a=c\n".toList,
          " a = strdup(c);\n".toList, "x;\n".toList, "//@ cleanup_variables\n".toList,
          "free(a);\na = NULL;\n\n".toList] :=
  (generateOutputFile_inserts .dedup
    (fun _ => some "//@ set a=b\n //@ set a=c\nx;\n//@ cleanup_variables\n".toList)
    "bench.c".toList _).mp (by decide +kernel)

/-- Whatever the order of the sets is, the same code is generated but for the order of
statements within a block. -/
theorem generateOutputFile_reordered (sets' : SetOrder)
    (h : generateOutputFile sets fopen fileName = .ok generated) :
    ∃ generated', generateOutputFile sets' fopen fileName = .ok generated' ∧
      List.Forall₂ Reordered generated generated' := by
  obtain ⟨text, htext, hout⟩ := inserted_of_generateOutputFile h
  obtain ⟨generated', hout', hreordered⟩ :=
    hout.exists_forall₂ Reordered.same fun tag _ hb => block_reordered sets sets' _ tag hb
  exact ⟨generated', generateOutputFile_of_inserted htext hout', hreordered⟩

/-- Every line is kept, and there is one string more for every annotation. -/
theorem sublist_of_generateOutputFile
    (h : generateOutputFile sets fopen fileName = .ok generated) :
    ∃ text, fopen fileName = some text ∧ (fileLines text).Sublist generated ∧
      generated.length =
        (fileLines text).length + ((fileLines text).filterMap lineTag).length := by
  obtain ⟨text, htext, hout⟩ := inserted_of_generateOutputFile h
  exact ⟨text, htext, hout.sublist, hout.length_eq⟩

/-- A call returns if the file can be read and every annotation in it has its block. -/
theorem exists_generateOutputFile_iff :
    (∃ generated, generateOutputFile sets fopen fileName = .ok generated) ↔
      ∃ text, fopen fileName = some text ∧
        ∀ tag ∈ (fileLines text).filterMap lineTag,
          ∃ b, block sets (varsOf (fileLines text)) tag = some b := by
  constructor
  · rintro ⟨generated, h⟩
    obtain ⟨text, htext, hout⟩ := inserted_of_generateOutputFile h
    exact ⟨text, htext, fun tag htag => hout.block_isSome htag⟩
  · rintro ⟨text, htext, h⟩
    obtain ⟨generated, hout⟩ := exists_inserted_iff.mpr h
    exact ⟨generated, generateOutputFile_of_inserted htext hout⟩

/-- A file without annotations is written as it was read. -/
theorem flatten_generateOutputFile (htext : fopen fileName = some text)
    (hreturn : '\r' ∉ text) (hplain : ∀ line ∈ fileLines text, lineTag line = none) :
    ∃ generated, generateOutputFile sets fopen fileName = .ok generated ∧
      generated.flatten = text :=
  ⟨fileLines text, generateOutputFile_of_inserted htext (inserted_self hplain),
    flatten_fileLines hreturn⟩

end Output

end ReproMPI.Benchmaker
