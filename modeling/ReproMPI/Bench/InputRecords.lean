import Mathlib.Tactic
import ReproMPI.Bench.JobInput
import ReproMPI.Lib.TextLines

/-!
# The records of an input file

`read_input_jobs` scans records of a call name, a size and a number of repetitions until the
file ends or a record is malformed, skips the calls it does not know and stores the others in
an array that is enlarged by 40 elements when it is full. What it stores are the known records
in their order, as long as the `int` that counts them can be enlarged as well.
-/

namespace ReproMPI.Bench

open CString TextLines BatchedArray

/-- One record of the file. -/
structure Record where
  mpiCall : List Char
  msize : ℕ
  nrep : ℤ
  deriving DecidableEq, Repr

/-- The job a record is stored as. -/
def Record.entry (r : Record) : JobEntry :=
  { callIndex := BitVec.ofInt 32 (getCallIndex r.mpiCall)
    msize := BitVec.ofNat 64 r.msize
    nRep := BitVec.ofInt 64 r.nrep }

/-- The records `fscanf` finds in a file before its end or the first malformed record. Call
names are shorter than the array they are read into. -/
inductive Scans : List Char → List Record → Prop
  | eof {file : List Char} (hscan : scanJob file = .eof) : Scans file []
  | malformed {file : List Char} (hscan : scanJob file = .mismatch) : Scans file []
  | record {file mpiCall rest : List Char} {msize : ℕ} {nrep : ℤ} {records : List Record}
      (hscan : scanJob file = .job mpiCall msize nrep rest) (hrest : Scans rest records) :
      Scans file (⟨mpiCall, msize, nrep⟩ :: records)

/-- The jobs that should be stored: those of the records with a known call. -/
def usableJobs (records : List Record) : List JobEntry :=
  (records.filter fun r => getCallIndex r.mpiCall ≠ -1).map Record.entry

theorem usableJobs_known {r : Record} (h : getCallIndex r.mpiCall ≠ -1) (records : List Record) :
    usableJobs (r :: records) = r.entry :: usableJobs records := by
  simp only [usableJobs]
  rw [List.filter_cons_of_pos (by simpa using h), List.map_cons]

theorem usableJobs_unknown {r : Record} (h : getCallIndex r.mpiCall = -1)
    (records : List Record) : usableJobs (r :: records) = usableJobs records := by
  simp only [usableJobs]
  rw [List.filter_cons_of_neg (by simpa using h)]

/-- The loop stores the usable jobs one after the other. -/
theorem Scans.readJobs_eq {file : List Char} {records : List Record} (h : Scans file records)
    (st : Store JobEntry) :
    readJobs st file = (usableJobs records).foldlM (Store.push lenJobBatch) st := by
  induction h generalizing st with
  | eof hscan =>
    rw [readJobs]
    split <;> simp_all [usableJobs]
  | malformed hscan =>
    rw [readJobs]
    split <;> simp_all [usableJobs]
  | @record file mpiCall rest msize nrep records hscan _ ih =>
    rw [readJobs]
    split
    · next h => rw [hscan] at h; cases h
    · next h => rw [hscan] at h; cases h
    · next h => rw [hscan] at h; cases h
    · next h =>
      obtain ⟨rfl, rfl, rfl, rfl⟩ := Scan.job.inj (hscan.symm.trans h)
      split
      · next hunknown => rw [usableJobs_unknown hunknown, ih]
      · next hknown =>
        rw [usableJobs_known hknown, List.foldlM_cons]
        exact congrArg (Option.bind _) (funext fun st => ih st)

/-! ## The array -/

theorem limit_lenJobBatch : limit lenJobBatch = 2147483640 := by
  unfold limit lenJobBatch
  norm_num

/-- `read_input_jobs` keeps the usable records in their order, and an element of the array is
left over after each of its stores. -/
theorem readInputJobs_usable {file : List Char} {records : List Record}
    (h : Scans file records) (hlen : (usableJobs records).length < 2147483640) :
    ∃ st : Store JobEntry, readJobs (Store.empty lenJobBatch) file = some st ∧
      st.items = usableJobs records ∧ st.items.length < st.allocated ∧
      readInputJobs file = some (usableJobs records) := by
  have hempty : Store.Ok lenJobBatch (Store.empty lenJobBatch : Store JobEntry) := Store.empty_ok
  obtain ⟨st, hfold, hjobs, hok⟩ :=
    hempty.foldlM_push (usableJobs records) (by decide) (by
      rw [limit_lenJobBatch]
      simpa [Store.empty] using hlen)
  obtain hjobs : st.items = usableJobs records := hjobs
  have hread : readJobs (Store.empty lenJobBatch) file = some st :=
    (h.readJobs_eq _).trans hfold
  refine ⟨st, hread, hjobs, hok.lt (by decide), ?_⟩
  rw [readInputJobs, hread]
  exact congrArg some hjobs

/-! ## The text of a record -/

/-- A record that can be written to a file and read back as it is. -/
structure Record.WellFormed (r : Record) : Prop where
  isWord : IsWord r.mpiCall
  length_lt : r.mpiCall.length < 100
  msize_lt : r.msize < 18446744073709551616
  nrep_long : -9223372036854775808 ≤ r.nrep ∧ r.nrep ≤ 9223372036854775807

/-- A record as a line of the file. -/
def Record.line (r : Record) : List Char :=
  r.mpiCall ++ ' ' :: (printInt r.msize ++ ' ' :: (printInt r.nrep ++ ['\n']))

theorem toSize_natCast {n : ℕ} (hn : n < 18446744073709551616) : toSize n = n := by
  rw [toSize]
  rw [Int.natAbs_natCast, if_pos hn]
  omega

theorem toLong_of_long {x : ℤ} (hx : -9223372036854775808 ≤ x ∧ x ≤ 9223372036854775807) :
    toLong x = x := by
  rw [toLong]
  omega

theorem endsNumber_cons {c : Char} (hc : c.isDigit = false) (s : List Char) :
    EndsNumber (c :: s) := by
  rintro d t ⟨⟩
  exact hc

/-- Three fields are scanned, whatever blanks stand in front of each of them. -/
theorem scanJob_fields (before mid last : List Char) {name rest : List Char} (x y : ℤ)
    (hbefore : ∀ c ∈ before, isSpace c = true) (hname : IsWord name) (hlen : name.length < 100)
    (hmid : ∀ c ∈ ' ' :: mid, isSpace c = true) (hlast : ∀ c ∈ ' ' :: last, isSpace c = true)
    (hrest : EndsNumber rest) :
    scanJob (before ++ (name ++ ' ' :: (mid ++ (printInt x ++ ' ' :: (last ++
      (printInt y ++ rest)))))) = .job name (toSize x) (toLong y) rest := by
  obtain ⟨hne, hword⟩ := hname
  have hhead : ∀ s c t, name ++ s = c :: t → isSpace c = false := by
    intro s c t h
    obtain ⟨d, u, rfl⟩ := List.exists_cons_of_ne_nil hne
    obtain ⟨rfl, -⟩ := List.cons_eq_cons.mp h
    exact hword d List.mem_cons_self
  have hskip : ∀ s, (before ++ (name ++ s)).dropWhile isSpace = name ++ s := fun s =>
    dropWhile_append_of_head hbefore (hhead s)
  have hpos : ∀ c ∈ name, (!isSpace c) = true := fun c hc => by rw [hword c hc]; rfl
  have hblank : ∀ s c t, ' ' :: s = c :: t → (!isSpace c) = false := by
    rintro s c t ⟨⟩
    rfl
  have htake : ∀ s, (name ++ ' ' :: s).takeWhile (fun c => !isSpace c) = name := fun s =>
    takeWhile_append_of_head hpos (hblank s)
  have hdrop : ∀ s, (name ++ ' ' :: s).dropWhile (fun c => !isSpace c) = ' ' :: s := fun s =>
    dropWhile_append_of_head hpos (hblank s)
  have hx := readInt_printInt x hmid (endsNumber_cons (c := ' ') (by decide)
    (last ++ (printInt y ++ rest)))
  have hy := readInt_printInt y hlast hrest
  rw [List.cons_append] at hx hy
  rw [scanJob]
  rw [hskip]
  split
  · next h => exact absurd (List.append_eq_nil_iff.mp h).1 hne
  · dsimp only
    rw [htake, hdrop, if_neg (not_le.mpr hlen)]
    rw [scanNumbers]
    simp only [hx, hy]

theorem Record.WellFormed.scanJob_line {r : Record} (h : r.WellFormed) (rest : List Char) :
    scanJob (r.line ++ rest) = .job r.mpiCall r.msize r.nrep ('\n' :: rest) := by
  have hscan := scanJob_fields [] [] [] r.msize r.nrep (by simp) h.isWord h.length_lt
    (by simp [isSpace]) (by simp [isSpace]) (endsNumber_cons (c := '\n') (by decide) rest)
  rw [toSize_natCast h.msize_lt, toLong_of_long h.nrep_long] at hscan
  rw [← hscan]
  simp [Record.line]

/-- Blanks in front of the next record do not matter. -/
theorem scanJob_newline (file : List Char) : scanJob ('\n' :: file) = scanJob file := by
  simp only [scanJob]
  rw [List.dropWhile_cons_of_pos (by decide)]

theorem Scans.newline {file : List Char} {records : List Record} (h : Scans file records) :
    Scans ('\n' :: file) records := by
  cases h with
  | eof hscan => exact .eof ((scanJob_newline file).trans hscan)
  | malformed hscan => exact .malformed ((scanJob_newline file).trans hscan)
  | record hscan hrest => exact .record ((scanJob_newline file).trans hscan) hrest

/-- The records written line by line are the records that are read, before those of the rest
of the file. -/
theorem scans_lines {records more : List Record} {tail : List Char}
    (h : ∀ r ∈ records, r.WellFormed) (htail : Scans tail more) :
    Scans (records.flatMap Record.line ++ tail) (records ++ more) := by
  induction records with
  | nil => exact htail
  | cons r records ih =>
    rw [List.flatMap_cons, List.append_assoc]
    exact .record ((h r List.mem_cons_self).scanJob_line _)
      (ih fun s hs => h s (List.mem_cons_of_mem _ hs)).newline

/-- A known call, an unknown one and another known one. -/
def threeRecords : List Record :=
  [⟨"MPI_Bcast".toList, 8, 10⟩, ⟨"MPI_Foo".toList, 8, 10⟩, ⟨"Empty".toList, 0, -1⟩]

/-- Three records before a malformed one and a fifth. -/
theorem readInputJobs_three :
    Scans (threeRecords.flatMap Record.line ++ "MPI_Scan x\nEmpty 1 1\n".toList) threeRecords ∧
      readInputJobs
          (threeRecords.flatMap Record.line ++ "MPI_Scan x\nEmpty 1 1\n".toList) =
        some [⟨4, 8, 10⟩, ⟨17, 0, -1⟩] := by
  have hwell : ∀ r ∈ threeRecords, r.WellFormed := by
    intro r hr
    simp only [threeRecords, List.mem_cons, List.not_mem_nil, or_false] at hr
    rcases hr with rfl | rfl | rfl <;> exact ⟨by decide, by decide, by decide, by decide⟩
  have hscans : Scans (threeRecords.flatMap Record.line ++ "MPI_Scan x\nEmpty 1 1\n".toList)
      (threeRecords ++ []) :=
    scans_lines hwell (.malformed (by decide))
  rw [List.append_nil] at hscans
  obtain ⟨st, -, -, -, hread⟩ := readInputJobs_usable hscans (by decide)
  exact ⟨hscans, hread.trans (by decide)⟩

/-- A record that is as short as they come. -/
def shortRecord : Record := ⟨"Empty".toList, 0, 1⟩

theorem usableJobs_replicate (n : ℕ) :
    usableJobs (List.replicate n shortRecord) = List.replicate n shortRecord.entry := by
  rw [usableJobs]
  rw [List.filter_replicate_of_pos (by decide), List.map_replicate]

/-- A file of `n` known records for which there is no array. -/
theorem readInputJobs_many {n : ℕ} (hn : 2147483640 ≤ n) :
    Scans ((List.replicate n shortRecord).flatMap Record.line) (List.replicate n shortRecord) ∧
      readInputJobs ((List.replicate n shortRecord).flatMap Record.line) = none := by
  have hwell : ∀ r ∈ List.replicate n shortRecord, r.WellFormed := by
    intro r hr
    rw [List.eq_of_mem_replicate hr]
    exact ⟨by decide, by decide, by decide, by decide⟩
  have heof : Scans [] [] := .eof (by decide)
  have hscans := scans_lines hwell heof
  rw [List.append_nil, List.append_nil] at hscans
  have hlen : 2147483640 ≤ (usableJobs (List.replicate n shortRecord)).length := by
    rwa [usableJobs_replicate, List.length_replicate]
  have hempty : Store.Ok lenJobBatch (Store.empty lenJobBatch : Store JobEntry) := Store.empty_ok
  have hfold : (usableJobs (List.replicate n shortRecord)).foldlM (Store.push lenJobBatch)
      (Store.empty lenJobBatch) = none :=
    hempty.foldlM_push_limit _ (by decide) (by decide) (by
      rw [limit_lenJobBatch]
      simpa [Store.empty] using hlen)
  refine ⟨hscans, ?_⟩
  rw [readInputJobs]
  rw [hscans.readJobs_eq, hfold]
  rfl

/-- `2 ^ 31 - 8` known records: the next enlargement of the array overflows. -/
theorem readInputJobs_overflow :
    Scans ((List.replicate 2147483640 shortRecord).flatMap Record.line)
        (List.replicate 2147483640 shortRecord) ∧
      readInputJobs ((List.replicate 2147483640 shortRecord).flatMap Record.line) = none :=
  readInputJobs_many le_rfl

end ReproMPI.Bench
