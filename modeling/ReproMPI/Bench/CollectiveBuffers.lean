import Mathlib.Tactic
import ReproMPI.Lib.CInt

/-!
# The buffers of the collectives

Every benchmarked collective has a function that computes the sizes of its two buffers in
`size_t` and compares them with `INT_MAX`, and one that passes the count on to MPI as an `int`.
A size is the count or the count times the number of processes, which may wrap. A function
that also checks the plain count is right for every count; that of `MPI_Alltoall` does not.
-/

namespace ReproMPI.Bench

/-- The entries of `collective_calls` other than the ping-pongs. -/
inductive Collective
  | allgather
  | allreduce
  | alltoall
  | barrier
  | bcast
  | exscan
  | gather
  | reduce
  | reduceScatter
  | reduceScatterBlock
  | scan
  | scatter
  | empty
  deriving DecidableEq, Repr

/-- `collective_params_t`; `sbuf` and `rbuf` are the numbers of elements allocated. -/
structure CollectiveParams where
  count : BitVec 64
  nprocs : ℤ
  scount : BitVec 64
  rcount : BitVec 64
  countsArray : List ℤ := []
  sbuf : ℕ
  rbuf : ℕ
  deriving DecidableEq, Repr

/-! ## Initialization

`none` is a failed assertion. `count` is the `long` argument, `params->count` the same bits as
a `size_t`. -/

/-- What the functions have in common: `initialize_common_data`, the assertions on the two
sizes and the allocation of the buffers. -/
def initializeBuffers (nprocs : ℤ) (count scount rcount : BitVec 64) :
    Option CollectiveParams :=
  if 0 < nprocs ∧ (scount.toNat : ℤ) < CInt.intMax ∧ (rcount.toNat : ℤ) < CInt.intMax then
    some
      { count := count
        nprocs := nprocs
        scount := scount
        rcount := rcount
        sbuf := scount.toNat
        rbuf := rcount.toNat }
  else none

/-- `count * params->nprocs`. -/
def timesNprocs (count : BitVec 64) (nprocs : ℤ) : BitVec 64 := count * BitVec.ofInt 64 nprocs

def initializeDataDefault (nprocs : ℤ) (count : BitVec 64) : Option CollectiveParams :=
  initializeBuffers nprocs count count count

def initializeDataScatter (nprocs : ℤ) (count : BitVec 64) : Option CollectiveParams :=
  initializeBuffers nprocs count (timesNprocs count nprocs) count

def initializeDataGather (nprocs : ℤ) (count : BitVec 64) : Option CollectiveParams :=
  initializeBuffers nprocs count count (timesNprocs count nprocs)

def initializeDataAllgather (nprocs : ℤ) (count : BitVec 64) : Option CollectiveParams :=
  initializeBuffers nprocs count count (timesNprocs count nprocs)

/-- The `long` itself is checked here as well, and copied to an array of `int`. -/
def initializeDataReduceScatter (nprocs : ℤ) (count : BitVec 64) : Option CollectiveParams := do
  let params ← initializeBuffers nprocs count (timesNprocs count nprocs) count
  if count.toInt < CInt.intMax then
    some { params with countsArray := List.replicate nprocs.toNat (CInt.ofLong count.toInt) }
  else none

def initializeDataReduceScatterBlock (nprocs : ℤ) (count : BitVec 64) :
    Option CollectiveParams :=
  initializeBuffers nprocs count (timesNprocs count nprocs) count

def initializeDataAlltoall (nprocs : ℤ) (count : BitVec 64) : Option CollectiveParams :=
  initializeBuffers nprocs count (timesNprocs count nprocs) (timesNprocs count nprocs)

/-- `collective_calls[..].initialize_data`. -/
def Collective.initializeData : Collective → ℤ → BitVec 64 → Option CollectiveParams
  | allgather => initializeDataAllgather
  | alltoall => initializeDataAlltoall
  | gather => initializeDataGather
  | reduceScatter => initializeDataReduceScatter
  | reduceScatterBlock => initializeDataReduceScatterBlock
  | scatter => initializeDataScatter
  | allreduce | barrier | bcast | exscan | reduce | scan | empty => initializeDataDefault

/-! ## The calls of MPI -/

/-- A call of MPI with its count arguments. -/
inductive MpiCall
  /-- `MPI_Barrier`, and no call at all. -/
  | none
  | bcast (count : ℤ)
  /-- `MPI_Scan`, `MPI_Allreduce`, `MPI_Exscan` and `MPI_Reduce`. -/
  | reduction (count : ℤ)
  | scatter (count : ℤ)
  /-- `MPI_Gather` and `MPI_Allgather`. -/
  | gather (count : ℤ)
  | reduceScatter (recvcounts : List ℤ)
  | reduceScatterBlock (recvcount : ℤ)
  | alltoall (count : ℤ)
  deriving DecidableEq, Repr

/-- `collective_calls[..].collective_call`. -/
def Collective.execute (params : CollectiveParams) : Collective → MpiCall
  | barrier | empty => .none
  | bcast => .bcast (CInt.ofLong params.count.toNat)
  | allreduce | exscan | reduce | scan => .reduction (CInt.ofLong params.count.toNat)
  | scatter => .scatter (CInt.ofLong params.count.toNat)
  | gather | allgather => .gather (CInt.ofLong params.count.toNat)
  | reduceScatter => .reduceScatter params.countsArray
  | reduceScatterBlock => .reduceScatterBlock (CInt.ofLong params.rcount.toNat)
  | alltoall => .alltoall (CInt.ofLong params.count.toNat)

/-- The count arguments of a call. -/
def MpiCall.counts : MpiCall → List ℤ
  | none => []
  | bcast count | reduction count | scatter count | gather count | alltoall count => [count]
  | reduceScatter recvcounts => recvcounts
  | reduceScatterBlock recvcount => [recvcount]

/-- The elements at the front of `sbuf` that MPI may access on a rank, the root where it is
more there. `MPI_Bcast` writes to this buffer on the other ranks. -/
def MpiCall.sends (nprocs : ℤ) : MpiCall → ℤ
  | none => 0
  | bcast count | reduction count | gather count => count
  | scatter count | alltoall count | reduceScatterBlock count => nprocs * count
  | reduceScatter recvcounts => recvcounts.sum

/-- The elements at the front of `rbuf` that MPI may write on a rank. -/
def MpiCall.receives (nprocs : ℤ) : MpiCall → ℤ
  | none | bcast _ => 0
  | reduction count | scatter count | reduceScatterBlock count => count
  | gather count | alltoall count => nprocs * count
  | reduceScatter recvcounts => recvcounts.foldr max 0

/-- Every count is passed on as it is and both buffers are large enough. -/
structure BuffersFit (call : MpiCall) (params : CollectiveParams) : Prop where
  counts : ∀ c ∈ call.counts, c = params.count.toNat
  sends : call.sends params.nprocs ≤ params.sbuf
  receives : call.receives params.nprocs ≤ params.rbuf

/-! ## When the buffers fit -/

section Sizes

variable {nprocs : ℤ} {count scount rcount : BitVec 64} {params : CollectiveParams}

theorem initializeBuffers_eq_some (h : initializeBuffers nprocs count scount rcount = some params) :
    0 < nprocs ∧ scount.toNat < 2147483647 ∧ rcount.toNat < 2147483647 ∧
      params.count = count ∧ params.nprocs = nprocs ∧ params.rcount = rcount ∧
      params.sbuf = scount.toNat ∧ params.rbuf = rcount.toNat := by
  rw [initializeBuffers] at h
  split at h
  · next hassert =>
    obtain ⟨hpos, hs, hr⟩ := hassert
    rw [CInt.intMax] at hs hr
    obtain rfl := Option.some.inj h
    exact ⟨hpos, by omega, by omega, rfl, rfl, rfl, rfl, rfl⟩
  · cases h

theorem timesNprocs_toNat (hpos : 0 < nprocs) (hmax : nprocs ≤ CInt.intMax) :
    (timesNprocs count nprocs).toNat = count.toNat * nprocs.toNat % 18446744073709551616 := by
  rw [CInt.intMax] at hmax
  have hn : (nprocs % 18446744073709551616).toNat = nprocs.toNat := by omega
  rw [timesNprocs]
  rw [BitVec.toNat_mul, BitVec.toNat_ofInt]
  show count.toNat * (nprocs % 18446744073709551616).toNat % 18446744073709551616 = _
  rw [hn]

/-- The product of a count that is an `int` and the number of processes does not wrap. -/
theorem timesNprocs_of_lt (hpos : 0 < nprocs) (hmax : nprocs ≤ CInt.intMax)
    (hcount : count.toNat < 2147483647) :
    ((timesNprocs count nprocs).toNat : ℤ) = nprocs * count.toNat := by
  have hle : count.toNat * nprocs.toNat ≤ 2147483647 * 2147483647 := by
    rw [CInt.intMax] at hmax
    exact Nat.mul_le_mul hcount.le (by omega)
  rw [timesNprocs_toNat hpos hmax, Nat.mod_eq_of_lt (by omega)]
  push_cast
  rw [Int.toNat_of_nonneg hpos.le, mul_comm]

theorem ofLong_count (hcount : count.toNat < 2147483647) :
    CInt.ofLong (count.toNat : ℤ) = count.toNat :=
  CInt.ofLong_of_inRange ⟨by omega, by omega⟩

/-- What the array of counts holds in a call that was allowed. -/
theorem ofLong_toInt (hcount : count.toNat < 2147483647) :
    CInt.ofLong count.toInt = count.toNat := by
  rw [BitVec.toInt_eq_toNat_of_lt (by omega), ofLong_count hcount]

theorem foldr_max_replicate_le (k : ℕ) {c : ℤ} (hc : 0 ≤ c) :
    (List.replicate k c).foldr max 0 ≤ c := by
  induction k with
  | zero => exact hc
  | succ k ih =>
    rw [List.replicate_succ, List.foldr_cons]
    exact max_le le_rfl ih

/-- A call with one count: what it passes on and what it needs, both computed from the count
itself. -/
theorem fits_of_counts_eq {call : MpiCall} (hcount : params.count = count)
    (hcounts : call.counts = [(count.toNat : ℤ)])
    (hsends : call.sends params.nprocs ≤ params.sbuf)
    (hreceives : call.receives params.nprocs ≤ params.rbuf) : BuffersFit call params where
  counts := by
    intro c hc
    rw [hcounts, List.mem_singleton] at hc
    rw [hc, hcount]
  sends := hsends
  receives := hreceives

/-- Each collective but `MPI_Alltoall` checks the count itself. -/
theorem Collective.initializeData_fits {c : Collective} (hmax : nprocs ≤ CInt.intMax)
    (hc : c ≠ .alltoall) (h : c.initializeData nprocs count = some params) :
    BuffersFit (c.execute params) params := by
  cases c with
  | alltoall => exact absurd rfl hc
  | barrier | empty =>
    exact ⟨fun _ hmem => absurd hmem List.not_mem_nil, Int.natCast_nonneg _,
      Int.natCast_nonneg _⟩
  | bcast =>
    obtain ⟨-, hs, -, hcount, -, -, hsbuf, -⟩ := initializeBuffers_eq_some h
    have harg : CInt.ofLong (params.count.toNat : ℤ) = count.toNat := by
      rw [hcount, ofLong_count hs]
    refine fits_of_counts_eq hcount (congrArg (fun k => [k]) harg) ?_ (Int.natCast_nonneg _)
    exact harg.trans_le (by rw [hsbuf])
  | allreduce | exscan | reduce | scan =>
    obtain ⟨-, hs, -, hcount, -, -, hsbuf, hrbuf⟩ := initializeBuffers_eq_some h
    have harg : CInt.ofLong (params.count.toNat : ℤ) = count.toNat := by
      rw [hcount, ofLong_count hs]
    refine fits_of_counts_eq hcount (congrArg (fun k => [k]) harg) ?_ ?_
    · exact harg.trans_le (by rw [hsbuf])
    · exact harg.trans_le (by rw [hrbuf])
  | scatter =>
    obtain ⟨hpos, -, hr, hcount, hn, -, hsbuf, hrbuf⟩ := initializeBuffers_eq_some h
    have harg : CInt.ofLong (params.count.toNat : ℤ) = count.toNat := by
      rw [hcount, ofLong_count hr]
    refine fits_of_counts_eq hcount (congrArg (fun k => [k]) harg) ?_ ?_
    · show params.nprocs * CInt.ofLong params.count.toNat ≤ _
      rw [harg, hsbuf, timesNprocs_of_lt hpos hmax hr, hn]
    · exact harg.trans_le (by rw [hrbuf])
  | gather | allgather =>
    obtain ⟨hpos, hs, -, hcount, hn, -, hsbuf, hrbuf⟩ := initializeBuffers_eq_some h
    have harg : CInt.ofLong (params.count.toNat : ℤ) = count.toNat := by
      rw [hcount, ofLong_count hs]
    refine fits_of_counts_eq hcount (congrArg (fun k => [k]) harg) ?_ ?_
    · exact harg.trans_le (by rw [hsbuf])
    · show params.nprocs * CInt.ofLong params.count.toNat ≤ _
      rw [harg, hrbuf, timesNprocs_of_lt hpos hmax hs, hn]
  | reduceScatterBlock =>
    obtain ⟨hpos, -, hr, hcount, hn, hrcount, hsbuf, hrbuf⟩ := initializeBuffers_eq_some h
    have harg : CInt.ofLong (params.rcount.toNat : ℤ) = count.toNat := by
      rw [hrcount, ofLong_count hr]
    refine fits_of_counts_eq hcount (congrArg (fun k => [k]) harg) ?_ ?_
    · show params.nprocs * CInt.ofLong params.rcount.toNat ≤ _
      rw [harg, hsbuf, timesNprocs_of_lt hpos hmax hr, hn]
    · exact harg.trans_le (by rw [hrbuf])
  | reduceScatter =>
    obtain ⟨params', hbuffers, h⟩ := Option.bind_eq_some_iff.mp h
    obtain ⟨hpos, -, hr, hcount, hn, -, hsbuf, hrbuf⟩ := initializeBuffers_eq_some hbuffers
    split at h
    · obtain rfl := Option.some.inj h
      rw [ofLong_toInt hr]
      refine ⟨?_, ?_, ?_⟩
      · intro k hk
        rw [List.eq_of_mem_replicate hk, ← hcount]
      · show (List.replicate nprocs.toNat (count.toNat : ℤ)).sum ≤ params'.sbuf
        rw [List.sum_replicate, hsbuf, timesNprocs_of_lt hpos hmax hr, nsmul_eq_mul,
          Int.toNat_of_nonneg hpos.le]
      · show (List.replicate nprocs.toNat (count.toNat : ℤ)).foldr max 0 ≤ params'.rbuf
        rw [hrbuf]
        exact foldr_max_replicate_le _ (Int.natCast_nonneg _)
    · cases h

/-! ## `MPI_Alltoall` -/

/-- The call fits if the product of the count and the number of processes does, and then
only: a product that wraps is at least `2 ^ 64`, the buffers stay below `INT_MAX`. -/
theorem alltoall_fits_iff (hmax : nprocs ≤ CInt.intMax)
    (h : initializeDataAlltoall nprocs count = some params) :
    BuffersFit (Collective.execute params .alltoall) params ↔
      nprocs * count.toNat < 18446744073709551616 := by
  obtain ⟨hpos, hs, -, hcount, hn, -, hsbuf, hrbuf⟩ := initializeBuffers_eq_some h
  have hproduct : (timesNprocs count nprocs).toNat =
      count.toNat * nprocs.toNat % 18446744073709551616 := timesNprocs_toNat hpos hmax
  have hcast : ((count.toNat * nprocs.toNat : ℕ) : ℤ) = nprocs * count.toNat := by
    push_cast
    rw [Int.toNat_of_nonneg hpos.le, mul_comm]
  constructor
  · intro hfits
    have harg : CInt.ofLong (params.count.toNat : ℤ) = params.count.toNat :=
      hfits.counts _ (List.mem_singleton.mpr rfl)
    have hsends : params.nprocs * CInt.ofLong (params.count.toNat : ℤ) ≤ params.sbuf :=
      hfits.sends
    rw [harg, hn, hcount, hsbuf] at hsends
    omega
  · intro hlt
    rw [← hcast] at hlt
    rw [Nat.mod_eq_of_lt (by omega)] at hproduct
    have hle : count.toNat ≤ count.toNat * nprocs.toNat :=
      Nat.le_mul_of_pos_right _ (by omega)
    have harg : CInt.ofLong (params.count.toNat : ℤ) = count.toNat := by
      rw [hcount, ofLong_count (by omega)]
    refine fits_of_counts_eq hcount (congrArg (fun k => [k]) harg) ?_ ?_
    · show params.nprocs * CInt.ofLong params.count.toNat ≤ _
      rw [harg, hsbuf, hproduct, hn, hcast]
    · show params.nprocs * CInt.ofLong params.count.toNat ≤ _
      rw [harg, hrbuf, hproduct, hn, hcast]

/-- The assertions of `initialize_data_Alltoall` see the product modulo `2 ^ 64`. -/
theorem alltoall_passes_iff (hpos : 0 < nprocs) (hmax : nprocs ≤ CInt.intMax) :
    (∃ params, initializeDataAlltoall nprocs count = some params) ↔
      nprocs * count.toNat % 18446744073709551616 < CInt.intMax := by
  have hcast : ((timesNprocs count nprocs).toNat : ℤ) =
      nprocs * count.toNat % 18446744073709551616 := by
    rw [timesNprocs_toNat hpos hmax]
    push_cast
    rw [Int.toNat_of_nonneg hpos.le, mul_comm]
  rw [initializeDataAlltoall, initializeBuffers]
  rw [hcast]
  constructor
  · rintro ⟨params, h⟩
    split at h
    · next hassert => exact hassert.2.1
    · cases h
  · intro hlt
    exact ⟨_, if_pos ⟨hpos, hlt, hlt⟩⟩

/-- The buffers are large enough and the counts are passed on unchanged in every collective
for every count, except for a product in `MPI_Alltoall` that wraps to something below
`INT_MAX`. -/
theorem collective_fits_iff (c : Collective) (hpos : 0 < nprocs) (hmax : nprocs ≤ CInt.intMax)
    (count : BitVec 64) :
    (∀ params, c.initializeData nprocs count = some params →
        BuffersFit (c.execute params) params) ↔
      (c = .alltoall → nprocs * count.toNat < 18446744073709551616 ∨
        CInt.intMax ≤ nprocs * count.toNat % 18446744073709551616) := by
  rcases eq_or_ne c .alltoall with rfl | hc
  · constructor
    · intro h _
      refine or_iff_not_imp_right.mpr fun hlt => ?_
      obtain ⟨params, hparams⟩ := (alltoall_passes_iff hpos hmax).mpr (not_le.mp hlt)
      exact (alltoall_fits_iff hmax hparams).mp (h params hparams)
    · intro h params hparams
      have hlt : nprocs * count.toNat % 18446744073709551616 < CInt.intMax :=
        (alltoall_passes_iff hpos hmax).mp ⟨params, hparams⟩
      refine (alltoall_fits_iff hmax hparams).mpr ((h rfl).resolve_right (not_le.mpr hlt))
  · refine iff_of_true ?_ fun heq => absurd heq hc
    exact fun params hparams => Collective.initializeData_fits hmax hc hparams

end Sizes

/-- Ten elements for each of three processes. -/
theorem collective_fits_ten :
    (0 : ℤ) < 3 ∧ (3 : ℤ) ≤ CInt.intMax ∧
      ∀ params, Collective.alltoall.initializeData 3 10 = some params →
        BuffersFit (Collective.execute params .alltoall) params :=
  ⟨by decide, by decide, (collective_fits_iff .alltoall (by decide) (by decide) 10).mpr
    fun _ => .inl (by decide)⟩

/-- Three times `6148914691236517206` is `2` modulo `2 ^ 64`: both buffers have two elements
and MPI is told that there are 1431655766 for each process. -/
theorem alltoall_misfits :
    Collective.alltoall.initializeData 3 6148914691236517206 =
        some { count := 6148914691236517206, nprocs := 3, scount := 2, rcount := 2, sbuf := 2,
               rbuf := 2 } ∧
      Collective.execute
        { count := 6148914691236517206, nprocs := 3, scount := 2, rcount := 2, sbuf := 2,
          rbuf := 2 } .alltoall = .alltoall 1431655766 ∧
      ¬ BuffersFit (.alltoall 1431655766)
        { count := 6148914691236517206, nprocs := 3, scount := 2, rcount := 2, sbuf := 2,
          rbuf := 2 } := by
  refine ⟨by decide, by decide, fun h => ?_⟩
  exact absurd h.sends (by decide)

end ReproMPI.Bench
