import Mathlib.Tactic
import ReproMPI.Lib.ByteBuffer

/-!
# Broadcasting the job list

Rank 0 reads the jobs from the input file and sends them as an array of `job_t`, described to
MPI by the hand-written type `job_info_dt`. The compiler aligns the members of `job_t` at 0, 8,
16 and 24; the displacements of the type are 0, 4, 12 and 20, so that the last four bytes of
each job, the upper half of `n_rep`, are not sent.
-/

namespace ReproMPI.Bench

open ByteBuffer

/-- What `read_input_jobs` stores for a job; `count` is computed later. -/
@[ext]
structure JobEntry where
  callIndex : BitVec 32
  msize : BitVec 64
  nRep : BitVec 64
  deriving DecidableEq, Repr

/-! ## `job_t` in memory -/

/-- `sizeof(job_t)`. -/
def sizeofJob : ℕ := 32

/-- The address of member `off` of job `k`. -/
def member (k off : ℕ) : ℤ := ((sizeofJob * k + off : ℕ) : ℤ)

/-- Job `k` of the array. -/
def loadJob (b : Buffer) (k : ℕ) : JobEntry :=
  { callIndex := ofIntBytes (b.load (member k 0) 4)
    msize := ofDoubleBytes (b.load (member k 16) 8)
    nRep := ofDoubleBytes (b.load (member k 24) 8) }

def storeJob (b : Buffer) (k : ℕ) (j : JobEntry) : Buffer :=
  ((b.store (member k 0) (intBytes j.callIndex)).store (member k 16) (doubleBytes j.msize)).store
    (member k 24) (doubleBytes j.nRep)

/-- The assignments to `jlist->jobs[k]`, `jlist->jobs[k + 1]`, .. -/
def storeJobs (b : Buffer) (k : ℕ) : List JobEntry → Buffer
  | [] => b
  | j :: js => storeJobs (storeJob b k j) (k + 1) js

/-- `calloc(n, sizeof(job_t))`. -/
def callocJobs (n : ℕ) : Buffer := { size := n * sizeofJob, byteAt := fun _ => 0 }

/-! ## The MPI type -/

/-- The result of `MPI_Type_create_struct`: blocks of contiguous bytes by displacement and
size. -/
structure StructType where
  blocks : List (ℕ × ℕ)
  alignment : ℕ

namespace StructType

/-- The end of the last block, rounded up to the alignment. -/
def extent (t : StructType) : ℕ :=
  let ub := (t.blocks.map fun blk => blk.1 + blk.2).foldl max 0
  (ub + (t.alignment - 1)) / t.alignment * t.alignment

/-- The type has the byte at offset `o` of an element. -/
def covers (t : StructType) (o : ℕ) : Bool :=
  t.blocks.any fun blk => decide (blk.1 ≤ o) && decide (o < blk.1 + blk.2)

/-- The buffer of a process after `MPI_Bcast` of `count` elements from `root`'s. -/
def bcast (t : StructType) (count : ℕ) (root other : Buffer) : Buffer :=
  { other with
    byteAt := fun a =>
      if 0 ≤ a ∧ a < ((count * t.extent : ℕ) : ℤ) ∧ t.covers (a.toNat % t.extent) = true then
        root.byteAt a
      else other.byteAt a }

end StructType

/-- `job_info_dt`: `MPI_INT`, `MPI_AINT`, `MPI_AINT` and `MPI_LONG` at the displacements
`0, sizeof(int), sizeof(size_t) + sizeof(int), 2 * sizeof(size_t) + sizeof(int)`. -/
def jobInfoDt : StructType :=
  let sizeofInt := 4
  let sizeofSize := 8
  { blocks := [(0, 4), (sizeofInt, 8), (sizeofSize + sizeofInt, 8),
      (2 * sizeofSize + sizeofInt, 8)]
    alignment := 8 }

/-- The array of process `r` after the broadcast. `fresh` is what rank 0's memory held before
the jobs were read. -/
def jobMemory (fresh : Buffer) (jobs : List JobEntry) (r : ℕ) : Buffer :=
  let root := storeJobs fresh 0 jobs
  if r = 0 then root else jobInfoDt.bcast jobs.length root (callocJobs jobs.length)

/-- The jobs process `r` works on. -/
def processJobs (fresh : Buffer) (jobs : List JobEntry) (r : ℕ) : List JobEntry :=
  (List.range jobs.length).map (loadJob (jobMemory fresh jobs r))

/-! ## Rank 0 -/

section Root

variable {b : Buffer} {jobs : List JobEntry} {j : JobEntry} {k : ℕ}

theorem loadJob_storeJob_self (b : Buffer) (k : ℕ) (j : JobEntry) :
    loadJob (storeJob b k j) k = j := by
  have hnRep : (storeJob b k j).load (member k 24) 8 = doubleBytes j.nRep :=
    Buffer.load_store_self _ _ (doubleBytes_length _)
  have hmsize : (storeJob b k j).load (member k 16) 8 = doubleBytes j.msize := by
    refine (Buffer.load_store_of_disjoint _ (Or.inl ?_)).trans
      (Buffer.load_store_self _ _ (doubleBytes_length _))
    simp only [member]
    omega
  have hcall : (storeJob b k j).load (member k 0) 4 = intBytes j.callIndex := by
    refine (Buffer.load_store_of_disjoint _ (Or.inl ?_)).trans
      ((Buffer.load_store_of_disjoint _ (Or.inl ?_)).trans
        (Buffer.load_store_self _ _ (intBytes_length _)))
    · simp only [member]
      omega
    · simp only [member]
      omega
  apply JobEntry.ext
  · simp only [loadJob, hcall, ofIntBytes_intBytes]
  · simp only [loadJob, hmsize, ofDoubleBytes_doubleBytes]
  · simp only [loadJob, hnRep, ofDoubleBytes_doubleBytes]

/-- A job does not reach into the others. -/
theorem load_storeJob_of_ne {k' off len : ℕ} (hk : k' ≠ k) (hlen : off + len ≤ sizeofJob) :
    (storeJob b k j).load (member k' off) len = b.load (member k' off) len := by
  have hapart : sizeofJob * k' + sizeofJob ≤ sizeofJob * k ∨
      sizeofJob * k + sizeofJob ≤ sizeofJob * k' := by
    rw [← Nat.mul_succ, ← Nat.mul_succ]
    rcases Nat.lt_or_gt_of_ne hk with hlt | hgt
    · exact Or.inl (Nat.mul_le_mul_left _ hlt)
    · exact Or.inr (Nat.mul_le_mul_left _ hgt)
  have hsize : sizeofJob = 32 := rfl
  refine (Buffer.load_store_of_disjoint _ ?_).trans
    ((Buffer.load_store_of_disjoint _ ?_).trans (Buffer.load_store_of_disjoint _ ?_))
  · simp only [member, doubleBytes_length]
    omega
  · simp only [member, doubleBytes_length]
    omega
  · simp only [member, intBytes_length]
    omega

theorem loadJob_storeJob_of_ne {k' : ℕ} (hk : k' ≠ k) :
    loadJob (storeJob b k j) k' = loadJob b k' := by
  apply JobEntry.ext
  · simp only [loadJob, load_storeJob_of_ne hk (show 0 + 4 ≤ sizeofJob by decide)]
  · simp only [loadJob, load_storeJob_of_ne hk (show 16 + 8 ≤ sizeofJob by decide)]
  · simp only [loadJob, load_storeJob_of_ne hk (show 24 + 8 ≤ sizeofJob by decide)]

theorem loadJob_storeJobs_of_lt {k' : ℕ} (hk : k' < k) :
    loadJob (storeJobs b k jobs) k' = loadJob b k' := by
  induction jobs generalizing b k with
  | nil => rfl
  | cons j js ih => exact (ih (Nat.lt_succ_of_lt hk)).trans (loadJob_storeJob_of_ne hk.ne)

/-- Every job is found where it was stored. -/
theorem loadJob_storeJobs {i : ℕ} (hi : jobs[i]? = some j) :
    loadJob (storeJobs b k jobs) (k + i) = j := by
  induction jobs generalizing b k i with
  | nil => cases hi
  | cons j' js ih =>
    cases i with
    | zero =>
      obtain rfl : j' = j := Option.some.inj hi
      exact (loadJob_storeJobs_of_lt (Nat.lt_succ_self k)).trans (loadJob_storeJob_self b k j')
    | succ i =>
      have hidx : k + (i + 1) = k + 1 + i := by omega
      rw [hidx]
      exact ih hi

theorem processJobs_zero (fresh : Buffer) (jobs : List JobEntry) :
    processJobs fresh jobs 0 = jobs := by
  refine List.ext_getElem (by simp [processJobs]) fun i hi hi' => ?_
  have hload : loadJob (storeJobs fresh 0 jobs) (0 + i) = jobs[i] :=
    loadJob_storeJobs (List.getElem?_eq_getElem hi')
  rw [Nat.zero_add] at hload
  simpa [processJobs, jobMemory] using hload

end Root

/-! ## The other processes -/

section Others

variable {root other : Buffer} {n k off len : ℕ}

theorem extent_jobInfoDt : jobInfoDt.extent = sizeofJob := by decide

/-- The type covers the first 28 bytes of a job without a gap. -/
theorem covers_jobInfoDt (o : ℕ) : jobInfoDt.covers o = decide (o < 28) := by
  simp only [jobInfoDt, StructType.covers, List.any_cons, List.any_nil, Bool.or_false]
  rw [Bool.eq_iff_iff]
  simp only [Bool.or_eq_true, Bool.and_eq_true, decide_eq_true_eq]
  omega

theorem byteAt_bcast (hk : k < n) {o : ℕ} (ho : o < sizeofJob) :
    (jobInfoDt.bcast n root other).byteAt (member k o) =
      if o < 28 then root.byteAt (member k o) else other.byteAt (member k o) := by
  have hmul : sizeofJob * k + sizeofJob ≤ n * sizeofJob := by
    rw [← Nat.mul_succ, Nat.mul_comm n]
    exact Nat.mul_le_mul_left _ hk
  have hin : 0 ≤ member k o ∧ member k o < ((n * jobInfoDt.extent : ℕ) : ℤ) := by
    rw [extent_jobInfoDt]
    simp only [member]
    omega
  have hoff : (member k o).toNat % jobInfoDt.extent = o := by
    rw [extent_jobInfoDt, member, Int.toNat_natCast, Nat.mul_add_mod, Nat.mod_eq_of_lt ho]
  simp only [StructType.bcast, hin, true_and, hoff, covers_jobInfoDt, decide_eq_true_eq]

theorem member_add (k off i : ℕ) : member k off + (i : ℤ) = member k (off + i) := by
  simp only [member]
  omega

/-- What lies in the first 28 bytes of a job arrives. -/
theorem load_bcast (hk : k < n) (hlen : off + len ≤ 28) :
    (jobInfoDt.bcast n root other).load (member k off) len = root.load (member k off) len := by
  refine List.map_congr_left fun i hi => ?_
  have hi' : i < len := List.mem_range.mp hi
  have hsize : sizeofJob = 32 := rfl
  rw [member_add, byteAt_bcast hk (by omega), if_pos (by omega)]

theorem load_append (b : Buffer) (a : ℤ) (m n : ℕ) :
    b.load a (m + n) = b.load a m ++ b.load (a + m) n := by
  simp only [Buffer.load, List.range_add, List.map_append, List.map_map]
  congr 1
  refine List.map_congr_left fun i _ => ?_
  show b.byteAt (a + ((m + i : ℕ) : ℤ)) = b.byteAt (a + m + i)
  rw [Nat.cast_add, add_assoc]

/-- The last four bytes of a job keep what the receiver had there. -/
theorem load_bcast_tail (hk : k < n) :
    (jobInfoDt.bcast n root other).load (member k 28) 4 = other.load (member k 28) 4 := by
  refine List.map_congr_left fun i hi => ?_
  have hi' : i < 4 := List.mem_range.mp hi
  have hsize : sizeofJob = 32 := rfl
  rw [member_add, byteAt_bcast hk (by omega), if_neg (by omega)]

theorem load_calloc (n : ℕ) (a : ℤ) (len : ℕ) :
    (callocJobs n).load a len = List.replicate len 0 := by
  simp [Buffer.load, callocJobs, List.map_const']

theorem ofLeBytes_append (bs cs : List Byte) :
    ofLeBytes (bs ++ cs) = ofLeBytes bs + 256 ^ bs.length * ofLeBytes cs := by
  induction bs with
  | nil => simp [ofLeBytes]
  | cons b bs ih =>
    rw [List.cons_append, ofLeBytes, ofLeBytes, ih, List.length_cons, pow_succ']
    ring

theorem ofLeBytes_replicate_zero (k : ℕ) : ofLeBytes (List.replicate k 0) = 0 := by
  induction k with
  | zero => rfl
  | succ k ih =>
    rw [List.replicate_succ, ofLeBytes, ih]
    rfl

theorem ofLeBytes_lt (bs : List Byte) : ofLeBytes bs < 256 ^ bs.length := by
  induction bs with
  | nil => simp [ofLeBytes]
  | cons b bs ih =>
    have hb : b.toNat < 256 := b.isLt
    rw [ofLeBytes, List.length_cons, pow_succ']
    omega

/-- The lower half of a number remains. -/
def lowerHalf (x : BitVec 64) : BitVec 64 := BitVec.ofNat 64 (x.toNat % 2 ^ 32)

theorem nRep_bcast (hk : k < n) :
    (loadJob (jobInfoDt.bcast n root (callocJobs n)) k).nRep =
      lowerHalf (loadJob root k).nRep := by
  let low := ofLeBytes (root.load (member k 24) 4)
  let high := ofLeBytes (root.load (member k 28) 4)
  have hlow : low < 2 ^ 32 := by
    have hlt := ofLeBytes_lt (root.load (member k 24) 4)
    rwa [show (root.load (member k 24) 4).length = 4 by simp [Buffer.load]] at hlt
  have hhigh : high < 2 ^ 32 := by
    have hlt := ofLeBytes_lt (root.load (member k 28) 4)
    rwa [show (root.load (member k 28) 4).length = 4 by simp [Buffer.load]] at hlt
  have hsplit (b : Buffer) : b.load (member k 24) 8 =
      b.load (member k 24) 4 ++ b.load (member k 28) 4 :=
    load_append b (member k 24) 4 4
  have hroot : ofLeBytes (root.load (member k 24) 8) = low + 2 ^ 32 * high := by
    rw [hsplit, ofLeBytes_append]
    rw [show (root.load (member k 24) 4).length = 4 by simp [Buffer.load]]
    norm_num [low, high]
  have hother : ofLeBytes ((jobInfoDt.bcast n root (callocJobs n)).load (member k 24) 8) = low := by
    rw [hsplit, load_bcast hk (by decide), load_bcast_tail hk, load_calloc, ofLeBytes_append,
      ofLeBytes_replicate_zero, Nat.mul_zero, Nat.add_zero]
  have hlt : low + 2 ^ 32 * high < 2 ^ 64 := by omega
  simp only [loadJob, lowerHalf, ofDoubleBytes, hroot, hother, BitVec.toNat_ofNat]
  rw [Nat.mod_eq_of_lt hlt, Nat.add_mul_mod_self_left, Nat.mod_eq_of_lt hlow]

/-- A job after the broadcast. -/
def JobEntry.received (j : JobEntry) : JobEntry := { j with nRep := lowerHalf j.nRep }

theorem loadJob_bcast (hk : k < n) :
    loadJob (jobInfoDt.bcast n root (callocJobs n)) k = (loadJob root k).received := by
  apply JobEntry.ext
  · exact congrArg ofIntBytes (load_bcast hk (by decide))
  · exact congrArg ofDoubleBytes (load_bcast hk (by decide))
  · exact nRep_bcast hk

/-- What the other processes work on. -/
theorem processJobs_of_ne_zero (fresh : Buffer) (jobs : List JobEntry) {r : ℕ} (hr : r ≠ 0) :
    processJobs fresh jobs r = jobs.map JobEntry.received := by
  refine List.ext_getElem (by simp [processJobs]) fun i hi hi' => ?_
  have hlt : i < jobs.length := by simpa using hi'
  have hroot : loadJob (storeJobs fresh 0 jobs) (0 + i) = jobs[i] :=
    loadJob_storeJobs (List.getElem?_eq_getElem hlt)
  rw [Nat.zero_add] at hroot
  have hload : loadJob (jobInfoDt.bcast jobs.length (storeJobs fresh 0 jobs)
      (callocJobs jobs.length)) i = (loadJob (storeJobs fresh 0 jobs) i).received :=
    loadJob_bcast hlt
  rw [hroot] at hload
  simpa [processJobs, jobMemory, hr] using hload

end Others

/-! ## The same list everywhere -/

theorem lowerHalf_eq_self_iff (x : BitVec 64) :
    lowerHalf x = x ↔ 0 ≤ x.toInt ∧ x.toInt < 2 ^ 32 := by
  have hx := x.isLt
  have hmod : x.toNat % 2 ^ 32 < 2 ^ 32 := Nat.mod_lt _ (by decide)
  have hval : lowerHalf x = x ↔ x.toNat % 2 ^ 32 = x.toNat := by
    rw [← BitVec.toNat_inj, lowerHalf, BitVec.toNat_ofNat, Nat.mod_eq_of_lt (by omega)]
  rw [hval, BitVec.toInt_eq_toNat_cond]
  split <;> omega

/-- Every process works on the list that rank 0 read. -/
def SameJobs (np : ℕ) (fresh : Buffer) (jobs : List JobEntry) : Prop :=
  ∀ r : Fin np, processJobs fresh jobs r = jobs

theorem map_received_iff {jobs : List JobEntry} :
    jobs.map JobEntry.received = jobs ↔ ∀ j ∈ jobs, 0 ≤ j.nRep.toInt ∧ j.nRep.toInt < 2 ^ 32 := by
  have hjob (j : JobEntry) : j.received = id j ↔ 0 ≤ j.nRep.toInt ∧ j.nRep.toInt < 2 ^ 32 := by
    rw [← lowerHalf_eq_self_iff]
    exact ⟨fun h => congrArg JobEntry.nRep h, fun h => JobEntry.ext rfl rfl h⟩
  have hmap := List.map_eq_map_iff (l := jobs) (f := JobEntry.received) (g := id)
  rw [List.map_id] at hmap
  exact hmap.trans (forall₂_congr fun j _ => hjob j)

/-- The broadcast keeps the jobs as long as no repetition count needs more than 32 bits. -/
theorem sameJobs_iff (np : ℕ) (fresh : Buffer) (jobs : List JobEntry) :
    SameJobs np fresh jobs ↔
      np ≤ 1 ∨ ∀ j ∈ jobs, 0 ≤ j.nRep.toInt ∧ j.nRep.toInt < 2 ^ 32 := by
  constructor
  · intro h
    by_cases hnp : np ≤ 1
    · exact Or.inl hnp
    · refine Or.inr (map_received_iff.mp ?_)
      rw [← processJobs_of_ne_zero fresh jobs Nat.one_ne_zero]
      exact h ⟨1, by omega⟩
  · rintro (hnp | hall) r
    · have hr : (r : ℕ) = 0 := by omega
      rw [hr]
      exact processJobs_zero fresh jobs
    · by_cases hr : (r : ℕ) = 0
      · rw [hr]
        exact processJobs_zero fresh jobs
      · rw [processJobs_of_ne_zero fresh jobs hr]
        exact map_received_iff.mpr hall

/-- Two processes and one job with `n_rep = 2 ^ 32`: rank 1 has `n_rep = 0`. -/
theorem not_sameJobs_pow :
    ¬ SameJobs 2 (callocJobs 1) [{ callIndex := 4, msize := 8, nRep := 4294967296 }] := by
  intro h
  have hone : processJobs _ _ 1 = _ := h 1
  rw [processJobs_of_ne_zero _ _ Nat.one_ne_zero] at hone
  exact absurd hone (by decide)

end ReproMPI.Bench
