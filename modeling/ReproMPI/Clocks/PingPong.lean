import Mathlib.Tactic
import ReproMPI.Lib.CInt
import ReproMPI.Lib.TimedFifo

/-!
# The SKaMPI ping-pong

`SKaMPIClockOffsetAlg::measure_offset` sends time stamps back and forth between a reference
and a client and narrows an interval around the offset of their clocks. Either side ends the
exchange with a negative time stamp.

The time is the one the reference's clock shows; the client's clock shows `d` more. The
`k`-th message of the reference is answered by the `k`-th message of the client, which is
answered by message `k + 1` of the reference, so that the readings are ordered as they are
sent. `RefPhase` and `ClientPhase` say what a side knows where it is in its program.
-/

namespace ReproMPI.Clocks

open Fifo

namespace PingPong

/-! ## The two programs -/

inductive Party
  | reference
  | client
  deriving DecidableEq, Repr

/-- The members of `SKaMPIClockOffsetAlg`, which are of type `int`. -/
structure SKaMPIClockOffsetAlg where
  minimumPingPongs : ℤ
  numberPingPongs : ℤ
  inRange : CInt.InRange numberPingPongs

structure ClockOffset (α : Type*) where
  timestamp : α
  offset : α
  deriving DecidableEq, Repr

/-- Where a process is; a message is first handed to the network and then flushed. `Second`
is what follows the first exchange before the loop. -/
inductive Pc
  | readFirst
  | sendFirst
  | flushFirst
  | recvFirst
  | readSecond
  | sendSecond
  | flushSecond
  | recvSecond
  | recv
  | read
  | send
  | flush
  | stop
  | flushStop
  | finish
  | returned
  deriving DecidableEq, Repr

/-- The local variables of `measure_offset`. -/
structure Local (α : Type*) where
  pc : Pc
  sNow : α
  sLast : α
  tNow : α
  tLast : α
  tdMin : α
  tdMax : α
  i : ℤ
  pingPongMinTime : α
  /-- The returned object. -/
  result : Option (ClockOffset α)
  deriving DecidableEq, Repr

section Programs

variable {α : Type*} [Field α] [LinearOrder α]

/-- `invalid_time`. -/
def invalidTime : α := -1

/-- The test that lets a side stop the exchange early. -/
def stopsEarly (alg : SKaMPIClockOffsetAlg) (st : Local α) (roundTrip : α) : Prop :=
  0 ≤ st.pingPongMinTime ∧ alg.minimumPingPongs ≤ st.i ∧
    roundTrip < st.pingPongMinTime * (11 / 10)

instance (alg : SKaMPIClockOffsetAlg) (st : Local α) (roundTrip : α) :
    Decidable (stopsEarly alg st roundTrip) := by
  rw [stopsEarly]
  infer_instance

/-- The interval gets smaller. -/
def Local.narrow (st : Local α) (lo hi : α) : Local α :=
  { st with tdMin := max st.tdMin lo, tdMax := min st.tdMax hi }

/-- What follows the loop. -/
def Local.finish (st : Local α) (timestamp offset : α) : Local α :=
  { st with
    pingPongMinTime :=
      if st.pingPongMinTime < 0 then st.tdMax - st.tdMin
      else min st.pingPongMinTime (st.tdMax - st.tdMin)
    result := some { timestamp := timestamp, offset := offset }
    pc := .returned }

/-- The loop body of the reference after the message was received. -/
def refMeasure (alg : SKaMPIClockOffsetAlg) (now : α) (st : Local α) :
    Action Party α (Local α) :=
  let st : Local α := { st with sLast := st.sNow, sNow := now }
  let st := st.narrow (st.tLast - st.sNow) (st.tLast - st.sLast)
  if stopsEarly alg st (st.sNow - st.sLast) then .tau { st with pc := .stop }
  else
    match CInt.check (st.i + 1) with
    | none => .fail
    | some i =>
      .tau { st with i := i, pc := if alg.numberPingPongs ≤ i then .stop else .send }

/-- The loop body of the client after the message was received. -/
def clientMeasure (alg : SKaMPIClockOffsetAlg) (now : α) (st : Local α) :
    Action Party α (Local α) :=
  let st : Local α := { st with tLast := st.tNow, tNow := now }
  if st.sLast < 0 then .tau { st with pc := .finish }
  else
    let st := st.narrow (st.sLast - st.tNow) (st.sLast - st.tLast)
    if stopsEarly alg st (st.tNow - st.tLast) then .tau { st with pc := .stop }
    else
      match CInt.check (st.i + 1) with
      | none => .fail
      | some i => .tau { st with i := i, pc := .send }

/-- The reference; `now` is what `clock.get_time()` returns. -/
def refAct (alg : SKaMPIClockOffsetAlg) (now : α) (st : Local α) : Action Party α (Local α) :=
  match st.pc with
  | .readFirst => .tau { st with sLast := now, pc := .sendFirst }
  | .sendFirst => .post .client st.sLast { st with pc := .flushFirst }
  | .flushFirst => .flush .client { st with pc := .recvFirst }
  | .recvFirst => .get .client fun t => { st with tLast := t, pc := .readSecond }
  | .readSecond => .tau { st with sNow := now, pc := .sendSecond }
  | .sendSecond => .post .client st.sNow { st with pc := .flushSecond }
  | .flushSecond =>
    .flush .client
      { st with
        tdMin := st.tLast - st.sNow, tdMax := st.tLast - st.sLast, i := 1, pc := .recv }
  | .recv =>
    .get .client fun t => { st with tLast := t, pc := if t < 0 then .finish else .read }
  | .read => refMeasure alg now st
  | .send => .post .client st.sNow { st with pc := .flush }
  | .flush => .flush .client { st with pc := .recv }
  | .stop => .post .client invalidTime { st with pc := .flushStop }
  | .flushStop => .flush .client { st with pc := .finish }
  | .finish => .tau (st.finish now ((st.tdMin + st.tdMax) / 2))
  | .returned => .halt
  | .recvSecond => .fail

/-- The client. -/
def clientAct (alg : SKaMPIClockOffsetAlg) (now : α) (st : Local α) :
    Action Party α (Local α) :=
  match st.pc with
  | .recvFirst => .get .reference fun s => { st with sLast := s, pc := .readFirst }
  | .readFirst => .tau { st with tLast := now, pc := .sendFirst }
  | .sendFirst => .post .reference st.tLast { st with pc := .flushFirst }
  | .flushFirst => .flush .reference { st with pc := .recvSecond }
  | .recvSecond => .get .reference fun s => { st with sNow := s, pc := .readSecond }
  | .readSecond =>
    .tau
      { st with
        tNow := now
        tdMin := max (st.sLast - st.tLast) (st.sNow - now)
        tdMax := st.sNow - st.tLast
        i := 1
        pc := .send }
  | .send => .post .reference st.tNow { st with pc := .flush }
  | .flush => .flush .reference { st with pc := .recv }
  | .recv => .get .reference fun s => { st with sLast := s, pc := .read }
  | .read => clientMeasure alg now st
  | .stop => .post .reference invalidTime { st with pc := .flushStop }
  | .flushStop => .flush .reference { st with pc := .finish }
  | .finish => .tau (st.finish now (-(st.tdMin + st.tdMax) / 2))
  | .returned => .halt
  | .sendSecond | .flushSecond => .fail

/-- `measure_offset` on both sides at the time `now`. -/
def act (alg : SKaMPIClockOffsetAlg) (d now : α) : Party → Local α → Action Party α (Local α)
  | .reference => refAct alg now
  | .client => clientAct alg (now + d)

/-- The first state of a side whose stored minimum time is `minTime`. -/
def enter (pc : Pc) (minTime : α) : Local α :=
  { pc := pc, sNow := 0, sLast := 0, tNow := 0, tLast := 0, tdMin := 0, tdMax := 0, i := 0,
    pingPongMinTime := minTime, result := none }

/-- Both sides enter `measure_offset`, at the time `start`. -/
def init (start : α) (minTime : Party → α) : Timed Party α (Local α) α where
  now := start
  config :=
    { loc := fun
        | .reference => enter .readFirst (minTime .reference)
        | .client => enter .recvFirst (minTime .client)
      net := Net.empty }

end Programs

/-! ## Messages -/

/-- The two channels. -/
structure Wire (α : Type*) where
  fromRef : List α
  fromClient : List α
  /-- The number of messages the reference has taken. -/
  byRef : ℕ
  byClient : ℕ

section Wire

variable {α : Type*}

def wire (net : Net Party α) : Wire α where
  fromRef := net.sent .reference .client
  fromClient := net.sent .client .reference
  byRef := net.rcvd .client .reference
  byClient := net.rcvd .reference .client

@[simp] theorem wire_post_client (net : Net Party α) (x : α) :
    wire (net.post .reference .client x) =
      { wire net with fromRef := (wire net).fromRef ++ [x] } := by
  simp [wire, Net.post]

@[simp] theorem wire_post_reference (net : Net Party α) (x : α) :
    wire (net.post .client .reference x) =
      { wire net with fromClient := (wire net).fromClient ++ [x] } := by
  simp [wire, Net.post]

@[simp] theorem wire_take_client (net : Net Party α) :
    wire (net.take .client .reference) = { wire net with byRef := (wire net).byRef + 1 } := by
  simp [wire, Net.take]

@[simp] theorem wire_take_reference (net : Net Party α) :
    wire (net.take .reference .client) =
      { wire net with byClient := (wire net).byClient + 1 } := by
  simp [wire, Net.take]

theorem getElem?_concat_eq_some {l : List α} {x y : α} {k : ℕ} (h : (l ++ [x])[k]? = some y) :
    l[k]? = some y ∨ (k = l.length ∧ y = x) := by
  rcases Nat.lt_or_ge k l.length with hlt | hge
  · exact Or.inl (by rwa [List.getElem?_append_left hlt] at h)
  · have hbound := (List.getElem?_eq_some_iff.mp h).1
    obtain rfl : k = l.length := by
      rw [List.length_append, List.length_singleton] at hbound
      omega
    rw [List.getElem?_concat_length] at h
    exact Or.inr ⟨rfl, (Option.some.inj h).symm⟩

theorem getElem?_concat_of_some {l : List α} {x y : α} {k : ℕ} (h : l[k]? = some y) :
    (l ++ [x])[k]? = some y := by
  rwa [List.getElem?_append_left (List.getElem?_eq_some_iff.mp h).1]

theorem take_succ_of_getElem? {l : List α} {x : α} {k : ℕ} (h : l[k]? = some x) :
    l.take (k + 1) = l.take k ++ [x] := by
  rw [List.take_add_one, h]
  rfl

/-- New messages do not change what was taken. -/
theorem take_concat {l : List α} {k : ℕ} (hk : k ≤ l.length) (x : α) :
    (l ++ [x]).take k = l.take k :=
  List.take_append_of_le_length hk

end Wire

section Side

variable {α : Type*} [Field α] [LinearOrder α] {own other : List α} {k e : ℕ} {x : α}

/-- A side has sent `own` and taken `k` messages of `other`, all of them time stamps. -/
structure Clean (own other : List α) (k : ℕ) : Prop where
  own_nonneg : ∀ x ∈ own, 0 ≤ x
  taken_nonneg : ∀ x ∈ other.take k, 0 ≤ x

/-- The side has ended the exchange. -/
structure Stopped (own other : List α) (k : ℕ) : Prop where
  last : ∃ stamps, own = stamps ++ [invalidTime] ∧ ∀ x ∈ stamps, 0 ≤ x
  taken_nonneg : ∀ x ∈ other.take k, 0 ≤ x

/-- The side was told that the other one has. -/
structure Told (own other : List α) (k : ℕ) : Prop where
  own_nonneg : ∀ x ∈ own, 0 ≤ x
  last : ∃ stamps, other.take k = stamps ++ [invalidTime] ∧ ∀ x ∈ stamps, 0 ≤ x

/-- It is the other's turn; `e` is one for the reference, which begins, and zero for the
client. -/
def Waiting (e : ℕ) (own other : List α) (k : ℕ) : Prop :=
  Clean own other k ∧ own.length = k + e

/-- It is the side's own turn. -/
def Holding (e : ℕ) (own other : List α) (k : ℕ) : Prop :=
  Clean own other k ∧ own.length + 1 = k + e

def Ended (e : ℕ) (own other : List α) (k : ℕ) : Prop :=
  (Stopped own other k ∧ own.length = k + e) ∨ (Told own other k ∧ own.length + 1 = k + e)

theorem Waiting.get (h : Waiting e own other k) (hx : other[k]? = some x) (hpos : 0 ≤ x) :
    Holding e own other (k + 1) := by
  refine ⟨⟨h.1.own_nonneg, ?_⟩, by rw [h.2]; omega⟩
  rw [take_succ_of_getElem? hx]
  intro y hy
  rcases List.mem_append.mp hy with hy | hy
  · exact h.1.taken_nonneg y hy
  · rwa [List.mem_singleton.mp hy]

theorem Waiting.get_invalid (h : Waiting e own other k) (hx : other[k]? = some invalidTime) :
    Ended e own other (k + 1) :=
  Or.inr ⟨⟨h.1.own_nonneg, _, take_succ_of_getElem? hx, h.1.taken_nonneg⟩, by rw [h.2]; omega⟩

theorem Holding.post (h : Holding e own other k) (hpos : 0 ≤ x) :
    Waiting e (own ++ [x]) other k := by
  refine ⟨⟨?_, h.1.taken_nonneg⟩, by simpa using h.2⟩
  intro y hy
  rcases List.mem_append.mp hy with hy | hy
  · exact h.1.own_nonneg y hy
  · rwa [List.mem_singleton.mp hy]

theorem Holding.post_invalid (h : Holding e own other k) :
    Stopped (own ++ [invalidTime]) other k ∧ (own ++ [invalidTime]).length = k + e :=
  ⟨⟨⟨own, rfl, h.1.own_nonneg⟩, h.1.taken_nonneg⟩, by simpa using h.2⟩

theorem Clean.grow (h : Clean own other k) (hk : k ≤ other.length) (x : α) :
    Clean own (other ++ [x]) k :=
  ⟨h.own_nonneg, by rw [take_concat hk]; exact h.taken_nonneg⟩

theorem Stopped.grow (h : Stopped own other k) (hk : k ≤ other.length) (x : α) :
    Stopped own (other ++ [x]) k :=
  ⟨h.last, by rw [take_concat hk]; exact h.taken_nonneg⟩

theorem Told.grow (h : Told own other k) (hk : k ≤ other.length) (x : α) :
    Told own (other ++ [x]) k :=
  ⟨h.own_nonneg, by rw [take_concat hk]; exact h.last⟩

theorem Waiting.grow (h : Waiting e own other k) (hk : k ≤ other.length) (x : α) :
    Waiting e own (other ++ [x]) k :=
  ⟨h.1.grow hk x, h.2⟩

theorem Holding.grow (h : Holding e own other k) (hk : k ≤ other.length) (x : α) :
    Holding e own (other ++ [x]) k :=
  ⟨h.1.grow hk x, h.2⟩

theorem Ended.grow (h : Ended e own other k) (hk : k ≤ other.length) (x : α) :
    Ended e own (other ++ [x]) k := by
  rcases h with ⟨h, hlen⟩ | ⟨h, hlen⟩
  · exact Or.inl ⟨h.grow hk x, hlen⟩
  · exact Or.inr ⟨h.grow hk x, hlen⟩

end Side

/-! ## The channels -/

section WireInv

variable {α : Type*} [Field α] [LinearOrder α] {N : ℤ} {d now now' x : α} {w : Wire α}

/-- What holds of the messages at the time `now`: the readings are in the order in which they
were sent. `N` is `Number_ping_pongs`. -/
structure WireInv (N : ℤ) (d now : α) (w : Wire α) : Prop where
  now_nonneg : 0 ≤ now ∧ 0 ≤ now + d
  byRef_le : w.byRef ≤ w.fromClient.length
  byClient_le : w.byClient ≤ w.fromRef.length
  fromRef_le : w.fromRef.length ≤ w.byRef + 1
  fromClient_le : w.fromClient.length ≤ w.byClient
  ref_reading : ∀ x ∈ w.fromRef, x = invalidTime ∨ 0 ≤ x ∧ x ≤ now
  client_reading : ∀ y ∈ w.fromClient, y = invalidTime ∨ 0 ≤ y ∧ y - d ≤ now
  asked : ∀ (k : ℕ) x y, w.fromRef[k]? = some x → w.fromClient[k]? = some y → 0 ≤ y → x ≤ y - d
  answered : ∀ (k : ℕ) x y, w.fromClient[k]? = some y → w.fromRef[k + 1]? = some x → 0 ≤ x →
    y - d ≤ x
  first_ref : ∀ (k : ℕ) x, w.fromRef[k]? = some x → k < 2 → 0 ≤ x
  first_client : ∀ y, w.fromClient[0]? = some y → 0 ≤ y
  bounded : ∀ (k : ℕ) x, w.fromRef[k]? = some x → 0 ≤ x → k < 2 ∨ (k : ℤ) < N

theorem WireInv.later [IsStrictOrderedRing α] (h : WireInv N d now w) (hnow : now ≤ now') :
    WireInv N d now' w where
  now_nonneg := ⟨h.now_nonneg.1.trans hnow, by linarith [h.now_nonneg.2]⟩
  byRef_le := h.byRef_le
  byClient_le := h.byClient_le
  fromRef_le := h.fromRef_le
  fromClient_le := h.fromClient_le
  ref_reading x hx := (h.ref_reading x hx).imp_right fun hr => ⟨hr.1, hr.2.trans hnow⟩
  client_reading y hy := (h.client_reading y hy).imp_right fun hr => ⟨hr.1, hr.2.trans hnow⟩
  asked := h.asked
  answered := h.answered
  first_ref := h.first_ref
  first_client := h.first_client
  bounded := h.bounded

/-- What the reference may send: the end of the exchange or a reading that is not before the
client's last one. -/
def RefMessage (N : ℤ) (d now : α) (w : Wire α) (x : α) : Prop :=
  (x = invalidTime ∧ 2 ≤ w.byRef) ∨
    (0 ≤ x ∧ x ≤ now ∧ (w.byRef < 2 ∨ (w.byRef : ℤ) < N) ∧
      ∀ k y, w.byRef = k + 1 → w.fromClient[k]? = some y → y - d ≤ x)

theorem not_invalidTime_nonneg [IsStrictOrderedRing α] : ¬ (0 : α) ≤ invalidTime := by
  rw [invalidTime]
  simp

theorem WireInv.ref_post [IsStrictOrderedRing α] (h : WireInv N d now w)
    (hlen : w.fromRef.length = w.byRef) (hx : RefMessage N d now w x) :
    WireInv N d now { w with fromRef := w.fromRef ++ [x] } where
  now_nonneg := h.now_nonneg
  byRef_le := h.byRef_le
  byClient_le := by
    have hle := h.byClient_le
    simp only [List.length_append, List.length_singleton]
    omega
  fromRef_le := by simp [hlen]
  fromClient_le := h.fromClient_le
  ref_reading y hy := by
    rcases List.mem_append.mp hy with hy | hy
    · exact h.ref_reading y hy
    · rw [List.mem_singleton.mp hy]
      exact hx.imp And.left fun hr => ⟨hr.1, hr.2.1⟩
  client_reading := h.client_reading
  asked k y z hy hz hpos := by
    rcases getElem?_concat_eq_some hy with hy | ⟨rfl, -⟩
    · exact h.asked k y z hy hz hpos
    -- the client has not answered the new message yet
    · have hbound : w.fromRef.length < w.fromClient.length := (List.getElem?_eq_some_iff.mp hz).1
      have hle := h.fromClient_le
      have hle' := h.byClient_le
      omega
  answered k y z hz hy hpos := by
    rcases getElem?_concat_eq_some hy with hy | ⟨hk, rfl⟩
    · exact h.answered k y z hz hy hpos
    · rcases hx with ⟨rfl, -⟩ | ⟨-, -, -, hlast⟩
      -- the new reading is not before the last one of the client
      · exact absurd hpos not_invalidTime_nonneg
      · exact hlast k z (by omega) hz
  first_ref k y hy hk := by
    rcases getElem?_concat_eq_some hy with hy | ⟨rfl, rfl⟩
    · exact h.first_ref k y hy hk
    · rcases hx with ⟨-, hge⟩ | ⟨hpos, -⟩
      · omega
      · exact hpos
  first_client := h.first_client
  bounded k y hy hpos := by
    rcases getElem?_concat_eq_some hy with hy | ⟨rfl, rfl⟩
    · exact h.bounded k y hy hpos
    · rcases hx with ⟨rfl, -⟩ | ⟨-, -, hbound, -⟩
      · exact absurd hpos not_invalidTime_nonneg
      · rwa [hlen]

theorem WireInv.ref_get (h : WireInv N d now w) {y : α}
    (hy : w.fromClient[w.byRef]? = some y) :
    WireInv N d now { w with byRef := w.byRef + 1 } where
  now_nonneg := h.now_nonneg
  byRef_le := (List.getElem?_eq_some_iff.mp hy).1
  byClient_le := h.byClient_le
  fromRef_le := h.fromRef_le.trans (Nat.le_succ _)
  fromClient_le := h.fromClient_le
  ref_reading := h.ref_reading
  client_reading := h.client_reading
  asked := h.asked
  answered := h.answered
  first_ref := h.first_ref
  first_client := h.first_client
  bounded := h.bounded

/-- What the client may send: the end of the exchange or a reading that is not before the
reference's last one. -/
def ClientMessage (d now : α) (w : Wire α) (y : α) : Prop :=
  (y = invalidTime ∧ 2 ≤ w.byClient) ∨
    (0 ≤ y ∧ y - d ≤ now ∧
      ∀ k x, w.byClient = k + 1 → w.fromRef[k]? = some x → x ≤ y - d)

theorem WireInv.client_post [IsStrictOrderedRing α] (h : WireInv N d now w)
    (hlen : w.fromClient.length + 1 = w.byClient) (hx : ClientMessage d now w x) :
    WireInv N d now { w with fromClient := w.fromClient ++ [x] } where
  now_nonneg := h.now_nonneg
  byRef_le := by
    have hle := h.byRef_le
    simp only [List.length_append, List.length_singleton]
    omega
  byClient_le := h.byClient_le
  fromRef_le := h.fromRef_le
  fromClient_le := by simp [hlen]
  ref_reading := h.ref_reading
  client_reading y hy := by
    rcases List.mem_append.mp hy with hy | hy
    · exact h.client_reading y hy
    · rw [List.mem_singleton.mp hy]
      exact hx.imp And.left fun hr => ⟨hr.1, hr.2.1⟩
  asked k y z hy hz hpos := by
    rcases getElem?_concat_eq_some hz with hz | ⟨rfl, rfl⟩
    · exact h.asked k y z hy hz hpos
    · rcases hx with ⟨rfl, -⟩ | ⟨-, -, hlast⟩
      · exact absurd hpos not_invalidTime_nonneg
      · exact hlast _ y hlen.symm hy
  answered k y z hz hy hpos := by
    rcases getElem?_concat_eq_some hz with hz | ⟨rfl, -⟩
    · exact h.answered k y z hz hy hpos
    · have hbound : w.fromClient.length + 1 < w.fromRef.length :=
        (List.getElem?_eq_some_iff.mp hy).1
      have hle := h.fromRef_le
      have hle' := h.byRef_le
      omega
  first_ref := h.first_ref
  first_client y hy := by
    rcases getElem?_concat_eq_some hy with hy | ⟨hk, rfl⟩
    · exact h.first_client y hy
    · rcases hx with ⟨-, hge⟩ | ⟨hpos, -⟩
      · omega
      · exact hpos
  bounded := h.bounded

theorem WireInv.client_get (h : WireInv N d now w) {y : α}
    (hy : w.fromRef[w.byClient]? = some y) :
    WireInv N d now { w with byClient := w.byClient + 1 } where
  now_nonneg := h.now_nonneg
  byRef_le := h.byRef_le
  byClient_le := (List.getElem?_eq_some_iff.mp hy).1
  fromRef_le := h.fromRef_le
  fromClient_le := h.fromClient_le.trans (Nat.le_succ _)
  ref_reading := h.ref_reading
  client_reading := h.client_reading
  asked := h.asked
  answered := h.answered
  first_ref := h.first_ref
  first_client := h.first_client
  bounded := h.bounded

end WireInv

/-! ## The two sides -/

section Phases

variable {α : Type*} [Field α] [LinearOrder α]

/-- The interval contains the offset. -/
def Brackets (st : Local α) (d : α) : Prop := st.tdMin ≤ d ∧ d ≤ st.tdMax

def Wire.RefWaits (w : Wire α) : Prop := Waiting 1 w.fromRef w.fromClient w.byRef

def Wire.RefHolds (w : Wire α) : Prop := Holding 1 w.fromRef w.fromClient w.byRef

def Wire.RefStopped (w : Wire α) : Prop :=
  Stopped w.fromRef w.fromClient w.byRef ∧ w.fromRef.length = w.byRef + 1

def Wire.RefEnded (w : Wire α) : Prop := Ended 1 w.fromRef w.fromClient w.byRef

def Wire.ClientWaits (w : Wire α) : Prop := Waiting 0 w.fromClient w.fromRef w.byClient

def Wire.ClientHolds (w : Wire α) : Prop := Holding 0 w.fromClient w.fromRef w.byClient

def Wire.ClientStopped (w : Wire α) : Prop :=
  Stopped w.fromClient w.fromRef w.byClient ∧ w.fromClient.length = w.byClient

def Wire.ClientEnded (w : Wire α) : Prop := Ended 0 w.fromClient w.fromRef w.byClient

/-- The reference at the time `now`. -/
def RefPhase (N : ℤ) (d now : α) (st : Local α) (w : Wire α) : Prop :=
  match st.pc with
  | .readFirst => w.RefHolds ∧ w.byRef = 0
  | .sendFirst => w.RefHolds ∧ w.byRef = 0 ∧ 0 ≤ st.sLast ∧ st.sLast ≤ now
  | .flushFirst | .recvFirst => w.RefWaits ∧ w.byRef = 0 ∧ w.fromRef[0]? = some st.sLast
  | .readSecond =>
    w.RefHolds ∧ w.byRef = 1 ∧ w.fromClient[0]? = some st.tLast ∧
      st.sLast ≤ st.tLast - d ∧ st.tLast - d ≤ now
  | .sendSecond =>
    w.RefHolds ∧ w.byRef = 1 ∧ w.fromClient[0]? = some st.tLast ∧
      st.sLast ≤ st.tLast - d ∧ st.tLast - d ≤ st.sNow ∧ 0 ≤ st.sNow ∧ st.sNow ≤ now
  | .flushSecond =>
    w.RefWaits ∧ w.byRef = 1 ∧ w.fromRef[1]? = some st.sNow ∧
      st.sLast ≤ st.tLast - d ∧ st.tLast - d ≤ st.sNow
  | .recv | .flush =>
    w.RefWaits ∧ 1 ≤ w.byRef ∧ st.i = w.byRef ∧ (w.byRef < 2 ∨ (w.byRef : ℤ) < N) ∧
      w.fromRef[w.byRef]? = some st.sNow ∧ Brackets st d
  | .read =>
    w.RefHolds ∧ 2 ≤ w.byRef ∧ st.i + 1 = w.byRef ∧ (st.i < 2 ∨ st.i < N) ∧
      w.fromClient[w.byRef - 1]? = some st.tLast ∧ st.sNow ≤ st.tLast - d ∧
      st.tLast - d ≤ now ∧ Brackets st d
  | .send =>
    w.RefHolds ∧ 2 ≤ w.byRef ∧ st.i = w.byRef ∧ (w.byRef : ℤ) < N ∧
      w.fromClient[w.byRef - 1]? = some st.tLast ∧ st.tLast - d ≤ st.sNow ∧ 0 ≤ st.sNow ∧
      st.sNow ≤ now ∧ Brackets st d
  | .stop => w.RefHolds ∧ 2 ≤ w.byRef ∧ Brackets st d
  | .flushStop => w.RefStopped ∧ Brackets st d
  | .finish => w.RefEnded ∧ Brackets st d
  | .returned =>
    w.RefEnded ∧ Brackets st d ∧
      ∃ t, st.result = some { timestamp := t, offset := (st.tdMin + st.tdMax) / 2 }
  | .recvSecond => False

/-- The client, whose interval is the one of `-d`. -/
def ClientPhase (d now : α) (st : Local α) (w : Wire α) : Prop :=
  match st.pc with
  | .recvFirst => w.ClientWaits ∧ w.byClient = 0
  | .readFirst =>
    w.ClientHolds ∧ w.byClient = 1 ∧ w.fromRef[0]? = some st.sLast ∧ st.sLast ≤ now
  | .sendFirst =>
    w.ClientHolds ∧ w.byClient = 1 ∧ w.fromRef[0]? = some st.sLast ∧ 0 ≤ st.tLast ∧
      st.sLast ≤ st.tLast - d ∧ st.tLast - d ≤ now
  | .flushFirst | .recvSecond =>
    w.ClientWaits ∧ w.byClient = 1 ∧ w.fromClient[0]? = some st.tLast ∧
      st.sLast ≤ st.tLast - d
  | .readSecond =>
    w.ClientHolds ∧ w.byClient = 2 ∧ w.fromRef[1]? = some st.sNow ∧
      st.sLast ≤ st.tLast - d ∧ st.tLast - d ≤ st.sNow ∧ st.sNow ≤ now
  | .send =>
    w.ClientHolds ∧ 2 ≤ w.byClient ∧ st.i + 1 = w.byClient ∧
      (∃ x, w.fromRef[w.byClient - 1]? = some x ∧ x ≤ st.tNow - d) ∧ 0 ≤ st.tNow ∧
      st.tNow - d ≤ now ∧ Brackets st (-d)
  | .flush | .recv =>
    w.ClientWaits ∧ 2 ≤ w.byClient ∧ st.i + 1 = w.byClient ∧
      w.fromClient[w.byClient - 1]? = some st.tNow ∧ Brackets st (-d)
  | .read =>
    3 ≤ w.byClient ∧ st.i + 2 = w.byClient ∧ w.fromRef[w.byClient - 1]? = some st.sLast ∧
      (0 ≤ st.sLast → w.ClientHolds ∧ st.tNow - d ≤ st.sLast ∧ st.sLast ≤ now) ∧
      (st.sLast < 0 → w.ClientEnded) ∧ Brackets st (-d)
  | .stop => w.ClientHolds ∧ 2 ≤ w.byClient ∧ Brackets st (-d)
  | .flushStop => w.ClientStopped ∧ Brackets st (-d)
  | .finish => w.ClientEnded ∧ Brackets st (-d)
  | .returned =>
    w.ClientEnded ∧ Brackets st (-d) ∧
      ∃ t, st.result = some { timestamp := t, offset := -(st.tdMin + st.tdMax) / 2 }
  | .sendSecond | .flushSecond => False

end Phases

end PingPong

end ReproMPI.Clocks
