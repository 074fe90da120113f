import ReproMPI.Lib.Sessions

/-!
# The ping-pong operations

Five ways in which the two processes of `--pingpong-ranks` send their buffers to each other,
with blocking and nonblocking operations. All processes execute the calls, the others do
nothing in them.
-/

namespace ReproMPI.Bench

open Requests

/-- The buffers of `collective_params_t`; `received` is what the caller has found in `rbuf`. -/
structure PingpongParams (μ : Type) where
  sbuf : μ
  rbuf : μ
  received : List μ

/-- Two different processes. -/
structure PingpongRanks (p : ℕ) where
  src : Fin p
  dst : Fin p
  ne : src ≠ dst

/-- The checks of `initialize_data_pingpong`; `none` when all processes exit. -/
def initializeDataPingpong (nprocs : ℕ) (pingpongRanks : ℤ × ℤ) : Option (PingpongRanks nprocs) :=
  if nprocs < 2 then none
  else if h : (0 ≤ pingpongRanks.1 ∧ pingpongRanks.1 < nprocs) ∧
      (0 ≤ pingpongRanks.2 ∧ pingpongRanks.2 < nprocs) ∧ pingpongRanks.1 ≠ pingpongRanks.2 then
    some
      { src := ⟨pingpongRanks.1.toNat, by omega⟩
        dst := ⟨pingpongRanks.2.toNat, by omega⟩
        ne := by
          intro heq
          have := congrArg Fin.val heq
          simp only at this
          omega }
  else none

/-- The benchmark goes on when the two ranks are different processes. -/
theorem initializeDataPingpong_eq_some_iff {nprocs : ℕ} {pingpongRanks : ℤ × ℤ}
    {ranks : PingpongRanks nprocs} :
    initializeDataPingpong nprocs pingpongRanks = some ranks ↔
      pingpongRanks.1 = (ranks.src : ℕ) ∧ pingpongRanks.2 = (ranks.dst : ℕ) := by
  obtain ⟨a, b⟩ := pingpongRanks
  obtain ⟨⟨s, hs⟩, ⟨d, hd⟩, hne⟩ := ranks
  have hsd : s ≠ d := fun h => hne (Fin.ext h)
  simp only [initializeDataPingpong]
  refine ⟨fun h => ?_, fun ⟨ha, hb⟩ => ?_⟩
  · split at h
    · cases h
    · split at h
      · cases h
        constructor <;> omega
      · cases h
  · subst ha hb
    have hvalid : ((0 : ℤ) ≤ s ∧ (s : ℤ) < nprocs) ∧ ((0 : ℤ) ≤ d ∧ (d : ℤ) < nprocs) ∧
        (s : ℤ) ≠ d := by omega
    rw [if_neg (by omega), dif_pos hvalid]
    simp

section Calls

variable {μ : Type} {p : ℕ}

/-- The operations of a process. -/
abbrev PingpongOp (μ : Type) (p : ℕ) := Op (Fin p) μ (PingpongParams μ)

/-- What arrives is stored in `rbuf`. -/
def toRbuf (m : μ) (params : PingpongParams μ) : PingpongParams μ := { params with rbuf := m }

/-- `recv_rank`, when the flag is set. -/
def recvRank (ranks : PingpongRanks p) (rank : Fin p) : Option (Fin p) :=
  if rank = ranks.src then some ranks.dst
  else if rank = ranks.dst then some ranks.src
  else none

/-- `execute_pingpong_Send_Recv`. -/
def executePingpongSendRecv (ranks : PingpongRanks p) (rank : Fin p) : List (PingpongOp μ p) :=
  if rank = ranks.src then
    Op.send ranks.dst PingpongParams.sbuf ++ Op.recv ranks.dst toRbuf
  else if rank = ranks.dst then
    Op.recv ranks.src toRbuf ++ Op.send ranks.src PingpongParams.sbuf
  else []

/-- `execute_pingpong_Isend_Recv`; `req` is variable `2`. -/
def executePingpongIsendRecv (ranks : PingpongRanks p) (rank : Fin p) : List (PingpongOp μ p) :=
  match recvRank ranks rank with
  | some r => .isend r PingpongParams.sbuf 2 :: Op.recv r toRbuf ++ [.waitall [2]]
  | none => []

/-- `execute_pingpong_Isend_Irecv`; `reqs` are variables `2` and `3`. -/
def executePingpongIsendIrecv (ranks : PingpongRanks p) (rank : Fin p) : List (PingpongOp μ p) :=
  match recvRank ranks rank with
  | some r => [.isend r PingpongParams.sbuf 2, .irecv r toRbuf 3, .waitall [2, 3]]
  | none => []

/-- `execute_pingpong_Send_Irecv`; `req` is variable `2`. -/
def executePingpongSendIrecv (ranks : PingpongRanks p) (rank : Fin p) : List (PingpongOp μ p) :=
  match recvRank ranks rank with
  | some r => .irecv r toRbuf 2 :: Op.send r PingpongParams.sbuf ++ [.waitall [2]]
  | none => []

/-- `execute_pingpong_Sendrecv`. -/
def executePingpongSendrecv (ranks : PingpongRanks p) (rank : Fin p) : List (PingpongOp μ p) :=
  match recvRank ranks rank with
  | some r => Op.sendrecv r PingpongParams.sbuf r toRbuf
  | none => []

inductive PingpongCall
  | sendRecv
  | isendRecv
  | isendIrecv
  | sendIrecv
  | sendrecv
  deriving DecidableEq, Repr

/-- The entry of `collective_calls`. -/
def PingpongCall.execute (ranks : PingpongRanks p) (rank : Fin p) :
    PingpongCall → List (PingpongOp μ p)
  | sendRecv => executePingpongSendRecv ranks rank
  | isendRecv => executePingpongIsendRecv ranks rank
  | isendIrecv => executePingpongIsendIrecv ranks rank
  | sendIrecv => executePingpongSendIrecv ranks rank
  | sendrecv => executePingpongSendrecv ranks rank

def fillSbuf (m : μ) (params : PingpongParams μ) : PingpongParams μ := { params with sbuf := m }

def readRbuf (params : PingpongParams μ) : PingpongParams μ :=
  { params with received := params.received ++ [params.rbuf] }

/-- The caller fills `sbuf` with its part of `data` before a call, and reads `rbuf` after it. -/
def callerOps (ranks : PingpongRanks p) (rank : Fin p) (k : PingpongCall × (Fin p → μ)) :
    List (PingpongOp μ p) :=
  .compute (fillSbuf (k.2 rank)) :: (k.1.execute ranks rank ++ [.compute readRbuf])

/-- All processes before the first call. -/
def startCalls (ranks : PingpongRanks p) (calls : List (PingpongCall × (Fin p → μ)))
    (params : Fin p → PingpongParams μ) (rank : Fin p) : Proc (Fin p) μ (PingpongParams μ) where
  todo := calls.flatMap (callerOps ranks rank)
  mem := params rank
  reqs _ := none
  sent _ := []
  posted _ := 0

end Calls

/-! ## One call -/

section Call

variable {μ : Type} {n : ℕ} {ranks : PingpongRanks n} {p : Proc (Fin n) μ (PingpongParams μ)}
  {rest : List (PingpongOp μ n)}

theorem recvRank_src : recvRank ranks ranks.src = some ranks.dst := if_pos rfl

theorem recvRank_dst : recvRank ranks ranks.dst = some ranks.src := by
  rw [recvRank, if_neg ranks.ne.symm, if_pos rfl]

theorem recvRank_of_ne {rank : Fin n} (h₁ : rank ≠ ranks.src) (h₂ : rank ≠ ranks.dst) :
    recvRank ranks rank = none := by
  rw [recvRank, if_neg h₁, if_neg h₂]

/-- Apart from `execute_pingpong_Send_Recv` both processes start a send and a receive before
they wait. -/
theorem execute_startsBoth {call : PingpongCall} {rank peer : Fin n} (hcall : call ≠ .sendRecv)
    (hpeer : recvRank ranks rank = some peer) (h : p.todo = call.execute ranks rank ++ rest) :
    StartsBoth peer PingpongParams.sbuf toRbuf rest p := by
  cases call with
  | sendRecv => exact absurd rfl hcall
  | isendRecv =>
    rw [PingpongCall.execute, executePingpongIsendRecv, hpeer] at h
    exact startsBoth_of_recv (by decide) h
  | isendIrecv =>
    rw [PingpongCall.execute, executePingpongIsendIrecv, hpeer] at h
    exact startsBoth_of_waitall (by decide) h
  | sendIrecv =>
    rw [PingpongCall.execute, executePingpongSendIrecv, hpeer] at h
    exact startsBoth_of_send (by decide) h
  | sendrecv =>
    rw [PingpongCall.execute, executePingpongSendrecv, hpeer] at h
    exact startsBoth_of_waitall (by decide) h

/-- The two processes exchange their buffers. -/
theorem execute_session (call : PingpongCall) :
    Session ranks.src ranks.dst (call.execute ranks ranks.src) (call.execute ranks ranks.dst)
      fun mems : PingpongParams μ × PingpongParams μ =>
        (toRbuf mems.2.sbuf mems.1, toRbuf mems.1.sbuf mems.2) := by
  by_cases hcall : call = .sendRecv
  · subst hcall
    simp only [PingpongCall.execute, executePingpongSendRecv, if_true, ranks.ne.symm, if_false]
    have hping := Session.transfer ranks.ne PingpongParams.sbuf (toRbuf (μ := μ))
    have hpong := Session.transfer ranks.ne.symm PingpongParams.sbuf (toRbuf (μ := μ))
    exact hping.append (hpong.symm ranks.ne.symm)
  · exact .exchange ranks.ne (fun p rest => execute_startsBoth hcall recvRank_src)
      fun q rest => execute_startsBoth hcall recvRank_dst

theorem execute_of_ne (call : PingpongCall) {rank : Fin n} (h₁ : rank ≠ ranks.src)
    (h₂ : rank ≠ ranks.dst) : call.execute (μ := μ) ranks rank = [] := by
  cases call with
  | sendRecv => rw [PingpongCall.execute, executePingpongSendRecv, if_neg h₁, if_neg h₂]
  | isendRecv => rw [PingpongCall.execute, executePingpongIsendRecv, recvRank_of_ne h₁ h₂]
  | isendIrecv => rw [PingpongCall.execute, executePingpongIsendIrecv, recvRank_of_ne h₁ h₂]
  | sendIrecv => rw [PingpongCall.execute, executePingpongSendIrecv, recvRank_of_ne h₁ h₂]
  | sendrecv => rw [PingpongCall.execute, executePingpongSendrecv, recvRank_of_ne h₁ h₂]

end Call

/-! ## All calls -/

section AllCalls

variable {μ : Type} {n : ℕ} {ranks : PingpongRanks n}

/-- What a call with its data makes of the memories of the two processes. -/
def callEffect (ranks : PingpongRanks n) (k : PingpongCall × (Fin n → μ))
    (mems : PingpongParams μ × PingpongParams μ) : PingpongParams μ × PingpongParams μ :=
  (readRbuf (toRbuf (k.2 ranks.dst) (fillSbuf (k.2 ranks.src) mems.1)),
    readRbuf (toRbuf (k.2 ranks.src) (fillSbuf (k.2 ranks.dst) mems.2)))

theorem callerOps_session (k : PingpongCall × (Fin n → μ)) :
    Session ranks.src ranks.dst (callerOps ranks ranks.src k) (callerOps ranks ranks.dst k)
      (callEffect ranks k) := by
  exact (Session.compute_both ranks.ne _ _).append
    ((execute_session k.1).append (.compute_both ranks.ne _ _))

theorem foldl_callEffect (calls : List (PingpongCall × (Fin n → μ)))
    (mems : PingpongParams μ × PingpongParams μ) :
    (calls.foldl (fun mems k => callEffect ranks k mems) mems).1.received =
        mems.1.received ++ calls.map (fun k => k.2 ranks.dst) ∧
      (calls.foldl (fun mems k => callEffect ranks k mems) mems).2.received =
        mems.2.received ++ calls.map fun k => k.2 ranks.src := by
  induction calls generalizing mems with
  | nil => simp
  | cons k calls ih =>
    obtain ⟨hleft, hright⟩ := ih (callEffect ranks k mems)
    rw [List.foldl_cons, hleft, hright]
    simp [callEffect, toRbuf, fillSbuf, readRbuf]

/-- The other processes do nothing in the calls. -/
theorem silent_startCalls {calls : List (PingpongCall × (Fin n → μ))}
    {params : Fin n → PingpongParams μ} {rank : Fin n} (h₁ : rank ≠ ranks.src)
    (h₂ : rank ≠ ranks.dst) : Silent (startCalls ranks calls params rank) := by
  intro op hop
  obtain ⟨⟨call, data⟩, -, hop⟩ := List.mem_flatMap.mp hop
  rw [callerOps, execute_of_ne call h₁ h₂] at hop
  obtain rfl | hop := List.mem_cons.mp hop
  · exact ⟨_, rfl⟩
  · exact ⟨_, List.mem_singleton.mp hop⟩

/-- Whatever the operations of the calls, whatever is buffered and however the processes are
scheduled, they come through all calls, and each of the two finds in `rbuf` after a call what
the other one had in `sbuf`. No message is left over. -/
theorem pingpong_completes (ranks : PingpongRanks n) (calls : List (PingpongCall × (Fin n → μ)))
    (params : Fin n → PingpongParams μ) :
    Completes (startCalls ranks calls params) fun c =>
      Aligned ranks.src ranks.dst (c ranks.src) (c ranks.dst) ∧
      (c ranks.src).mem.received =
        (params ranks.src).received ++ calls.map (fun k => k.2 ranks.dst) ∧
      (c ranks.dst).mem.received =
        (params ranks.dst).received ++ calls.map fun k => k.2 ranks.src := by
  have hsession : Session ranks.src ranks.dst (calls.flatMap (callerOps ranks ranks.src))
      (calls.flatMap (callerOps ranks ranks.dst))
      fun mems => calls.foldl (fun mems k => callEffect ranks k mems) mems :=
    .flatMap fun k _ => callerOps_session k
  refine (hsession.completes ranks.ne ⟨rfl, rfl⟩ rfl rfl fun r h₁ h₂ =>
    silent_startCalls h₁ h₂).mono fun c ⟨haligned, hmems⟩ => ?_
  obtain ⟨hsrc, hdst⟩ := foldl_callEffect calls (params ranks.src, params ranks.dst)
  refine ⟨haligned, ?_, ?_⟩
  · rw [← hsrc]
    exact congrArg (fun mems => mems.1.received) hmems
  · rw [← hdst]
    exact congrArg (fun mems => mems.2.received) hmems

end AllCalls

end ReproMPI.Bench
