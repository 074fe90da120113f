import ReproMPI.Lib.Communicator

/-!
# Communicators of nodes and sockets

The hierarchical clock synchronizations split the processes by node and by socket, and put
the first process of each node, and of each socket of a node, into communicators of their own.
-/

namespace ReproMPI.Clocks

open Communicator

/-! ## The socket of a process -/

/-- An object of the hardware topology, `hwloc_obj_t`. -/
structure HwlocObj where
  isSocket : Bool
  logicalIndex : BitVec 32

/-- What hwloc reports about the CPU binding of a process. -/
structure CpuBinding where
  /-- `hwloc_bitmap_alloc` succeeds. -/
  allocated : Bool
  /-- The result of `hwloc_get_cpubind`. -/
  cpubind : ℤ
  /-- For each core of the binding the objects from its processing unit to the root. -/
  cores : List (List HwlocObj)

/-- The variables `socket_id` (an `unsigned int`) and `err` of the loop over the cores. -/
structure SocketScan where
  socketId : BitVec 32
  err : Bool

/-- The loop over the parents of a processing unit; it stops at the first socket. The
comparison `socket_id >= 0` of the source is one of unsigned numbers. -/
def scanCore (st : SocketScan) : List HwlocObj → SocketScan
  | [] => st
  | obj :: parents =>
    if obj.isSocket then
      if 0 ≤ st.socketId ∧ st.socketId ≠ obj.logicalIndex then { st with err := true }
      else { st with socketId := obj.logicalIndex }
    else scanCore st parents

/-- The loop over the cores. -/
def scanCores (st : SocketScan) : List (List HwlocObj) → SocketScan
  | [] => st
  | core :: cores =>
    let st := scanCore st core
    if st.err then st else scanCores st cores

/-- `get_socket_id`. -/
def getSocketId (binding : CpuBinding) : ℤ :=
  if !binding.allocated then -1
  else if binding.cpubind < 0 then -1
  else
    let st := scanCores { socketId := -1, err := false } binding.cores
    if st.err then -1 else st.socketId.toInt

section Scan

variable {st : SocketScan}

/-- A socket other than the initial value of `socket_id` counts as a second one. -/
theorem scanCore_socketId (h : st.socketId = -1) (core : List HwlocObj) :
    (scanCore st core).socketId = -1 := by
  induction core with
  | nil => exact h
  | cons obj parents ih =>
    rw [scanCore]
    split
    · split
      · exact h
      · next hsame =>
        have hzero : (0 : BitVec 32) ≤ st.socketId := by simp [BitVec.le_def]
        have heq : st.socketId = obj.logicalIndex := by
          by_contra hne
          exact hsame ⟨hzero, hne⟩
        exact heq.symm.trans h
    · exact ih

theorem scanCores_socketId (h : st.socketId = -1) (cores : List (List HwlocObj)) :
    (scanCores st cores).socketId = -1 := by
  induction cores generalizing st with
  | nil => exact h
  | cons core cores ih =>
    simp only [scanCores]
    split
    · exact scanCore_socketId h core
    · exact ih (scanCore_socketId h core)

/-- Whatever the binding is, no socket is found. -/
theorem getSocketId_eq (binding : CpuBinding) : getSocketId binding = -1 := by
  simp only [getSocketId]
  split
  · rfl
  · split
    · rfl
    · split
      · rfl
      · rw [scanCores_socketId rfl]
        rfl

end Scan

/-! ## The communicators -/

/-- Where the processes run: the node, which is where they share memory, and what
`get_socket_id` returns. -/
structure Machine (ι : Type*) where
  node : ι → ℤ
  socketId : ι → ℤ

section Create

variable {ι : Type*} [DecidableEq ι]

/-- `create_intranode_communicator`. -/
def createIntranodeCommunicator (m : Machine ι) (oldComm : Comm ι) (r : ι) : Option (Comm ι) :=
  commSplit oldComm (fun p => some (m.node p)) (fun p => oldComm.rank p) r

/-- `create_intrasocket_communicator`; `socketId p` is the argument of process `p`. -/
def createIntrasocketCommunicator (socketId : ι → ℤ) (oldComm : Comm ι) (r : ι) :
    Option (Comm ι) :=
  commSplit oldComm (fun p => some (socketId p)) (fun p => oldComm.rank p) r

/-- The colour of a process in `create_interlevel_communicator`. -/
def interlevelColor (localComm : ι → Option (Comm ι)) (localRankPerNode : ℕ) (p : ι) :
    Option ℤ :=
  match localComm p with
  | some comm => if comm.rank p = localRankPerNode then some (comm.rank p) else none
  | none => none

/-- `create_interlevel_communicator`; `localComm p` is the argument of process `p`. The result is
`none` if the process exits, since its local communicator is too small. -/
def createInterlevelCommunicator (oldComm : Comm ι) (localComm : ι → Option (Comm ι))
    (localRankPerNode : ℕ) (r : ι) : Option (Option (Comm ι)) :=
  match localComm r with
  | some comm =>
    if comm.size ≤ localRankPerNode then none
    else some (commSplit oldComm (interlevelColor localComm localRankPerNode)
      (fun p => oldComm.rank p) r)
  | none => none

/-- No process exits where the communicators of the first processes are created. -/
theorem createInterlevelCommunicator_zero {oldComm comm : Comm ι} {localComm : ι → Option (Comm ι)}
    {r : ι} (h : localComm r = some comm) : createInterlevelCommunicator oldComm localComm 0 r =
      some (commSplit oldComm (interlevelColor localComm 0) (fun p => oldComm.rank p) r) := by
  rw [createInterlevelCommunicator, h]
  exact if_neg (not_le.mpr comm.size_pos)

namespace Machine

variable (m : Machine ι) {comm g : Comm ι} {r : ι}

/-- `socket_id` in `initialized_communicators`, with the fallback. -/
def socketOf (p : ι) : ℤ := if m.socketId p < 0 then 0 else m.socketId p

/-- `comm_intranode`. -/
def commIntranode : Grouping ι := .split fun _ p => some (m.node p)

/-- `comm_internode`. -/
def commInternode : Grouping ι := m.commIntranode.interlevel 0

/-- The sockets of a node. -/
def sockets : Grouping ι := .split fun _ p => some (m.socketOf p)

/-- `comm_intrasocket`. -/
def commIntrasocket : Grouping ι := m.commIntranode.within m.sockets

/-- `comm_intersocket`. -/
def commIntersocket : Grouping ι := m.commIntranode.within (m.sockets.interlevel 0)

variable {m}

theorem total_commIntranode : m.commIntranode.Total comm :=
  Grouping.total_split fun _ _ => Option.some_ne_none _

theorem total_sockets : m.sockets.Total comm :=
  Grouping.total_split fun _ _ => Option.some_ne_none _

/-- The groupings are what the functions of the source create. -/
theorem commIntranode_group : m.commIntranode.group comm r =
    createIntranodeCommunicator m comm r := rfl

theorem commInternode_group (hr : r ∈ comm.members) :
    createInterlevelCommunicator comm (createIntranodeCommunicator m comm) 0 r =
      some (m.commInternode.group comm r) := by
  obtain ⟨g, hg⟩ := total_commIntranode (m := m) r hr
  exact createInterlevelCommunicator_zero hg

theorem commIntrasocket_group (h : m.commIntranode.group comm r = some g) :
    m.commIntrasocket.group comm r = createIntrasocketCommunicator m.socketOf g r := by
  simp only [commIntrasocket, Grouping.within, h, Option.bind_some]
  rfl

theorem commIntersocket_group (hr : r ∈ comm.members) (h : m.commIntranode.group comm r = some g) :
    createInterlevelCommunicator g (createIntrasocketCommunicator m.socketOf g) 0 r =
      some (m.commIntersocket.group comm r) := by
  obtain ⟨s, hs⟩ := total_sockets (m := m) r (m.commIntranode.mem hr h).1
  have hgroup : m.commIntersocket.group comm r = (m.sockets.interlevel 0).group g r := by
    simp only [commIntersocket, Grouping.within, h, Option.bind_some]
  rw [hgroup]
  exact createInterlevelCommunicator_zero hs

/-- The processes of a node communicator are on one node. -/
theorem node_eq (h : m.commIntranode.group comm r = some g) {p : ι} (hp : p ∈ g.members) :
    m.node p = m.node r :=
  Option.some_injective _ ((Grouping.mem_split_iff h).mp hp).2

theorem socketOf_eq (h : m.sockets.group comm r = some g) {p : ι} (hp : p ∈ g.members) :
    m.socketOf p = m.socketOf r :=
  Option.some_injective _ ((Grouping.mem_split_iff h).mp hp).2

end Machine

end Create

end ReproMPI.Clocks
