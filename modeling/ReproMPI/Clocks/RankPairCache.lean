import Mathlib.Tactic
import ReproMPI.Clocks.PingPong
import ReproMPI.Clocks.RoundTrip
import ReproMPI.Lib.CString
import ReproMPI.Lib.Memo

/-!
# Values remembered for a pair of ranks

`SKaMPIClockOffsetAlg` and `PingpongClockOffsetAlg` keep a map from pairs of ranks to the
minimum time of a ping-pong and to the round-trip time. Both look the pair up with the test
the other way round: a value that is there is thrown away, and a pair that is not there gets
the zero that `operator[]` inserts.
-/

namespace ReproMPI.Clocks

open CString Fifo

/-! ## The keys -/

/-- `rank1` and `rank2`. -/
def rankPair (refRank clientRank : ℤ) : ℤ × ℤ :=
  if refRank < clientRank then (refRank, clientRank) else (clientRank, refRank)

/-- `key_str`. -/
def keyStr (pair : ℤ × ℤ) : List Char := printInt pair.1 ++ ',' :: printInt pair.2

theorem rankPair_comm (p q : ℤ) : rankPair p q = rankPair q p := by
  rw [rankPair, rankPair]
  rcases lt_trichotomy p q with h | rfl | h
  · rw [if_pos h, if_neg h.le.not_gt]
  · rfl
  · rw [if_neg h.le.not_gt, if_pos h]

theorem rankPair_eq_iff {p q r s : ℤ} :
    rankPair p q = rankPair r s ↔ p = r ∧ q = s ∨ p = s ∧ q = r := by
  simp only [rankPair]
  split <;> split <;> simp only [Prod.mk.injEq] <;> omega

/-- A numeral has no comma, so the text tells the two ranks. -/
theorem keyStr_injective : Function.Injective keyStr := by
  rintro ⟨p, q⟩ ⟨r, s⟩ h
  have hcomma : ∀ x, ',' ∉ printInt x := not_mem_printInt (by decide) (by decide)
  have hfst := congrArg (List.takeWhile (· ≠ ',')) h
  have hsnd := congrArg (List.dropWhile (· ≠ ',')) h
  simp only [keyStr, takeWhile_ne_append (hcomma _), dropWhile_ne_append (hcomma _)] at hfst hsnd
  rw [printInt_injective hfst, printInt_injective (List.cons.inj hsnd).2]

/-! ## The minimum time of a ping-pong -/

namespace PingPong

/-- A call of `measure_offset` by the process of rank `myRank`. -/
structure Call where
  myRank : ℤ
  refRank : ℤ
  clientRank : ℤ
  deriving DecidableEq, Repr

def Call.pair (c : Call) : ℤ × ℤ := rankPair c.refRank c.clientRank

/-- The process is one of the two; any other one returns at once. -/
def Call.takesPart (c : Call) : Prop := c.myRank = c.clientRank ∨ c.myRank = c.refRank

instance (c : Call) : Decidable c.takesPart := inferInstanceAs (Decidable (_ ∨ _))

/-- The minimum times of a call: the one it started with and the one it stored. -/
structure Times (α : Type) where
  start : α
  stored : α

/-- A call, and its times if the process took part. -/
structure Event (α : Type) where
  call : Call
  times : Option (Times α)

/-- What the calls stored, pair by pair. -/
def stores {α : Type} (events : List (Event α)) : List ((ℤ × ℤ) × α) :=
  events.filterMap fun e => e.times.map fun t => (e.call.pair, t.stored)

theorem stores_concat {α : Type} (events : List (Event α)) (e : Event α) :
    stores (events ++ [e]) =
      stores events ++ (e.times.map fun t => (e.call.pair, t.stored)).toList := by
  rw [stores, List.filterMap_append]
  cases h : e.times with
  | none => simp [h, stores]
  | some t => simp [h, stores]

variable {α : Type} [Field α] [LinearOrder α]

/-- `rankpair2minpingpong`. -/
abbrev MinTimes (α : Type) := List Char → Option α

/-- The lookup: `ping_pong_min_time` and the map afterwards. -/
def lookupMinTime (rankpair2minpingpong : MinTimes α) (key : List Char) : α × MinTimes α :=
  match rankpair2minpingpong key with
  | some _ => (-1, rankpair2minpingpong)
  | none => (0, Function.update rankpair2minpingpong key (some 0))

/-- The side of the exchange the process is on. -/
def Call.side (c : Call) : Party := if c.myRank = c.refRank then .reference else .client

def Party.act (alg : SKaMPIClockOffsetAlg) (now : α) : Party → Local α → Action Party α (Local α)
  | .reference => refAct alg now
  | .client => clientAct alg now

def Party.entry : Party → Pc
  | .reference => .readFirst
  | .client => .recvFirst

/-- A step of the process: its clock and the other side may show and send anything. -/
inductive LocalStep (alg : SKaMPIClockOffsetAlg) (c : Call) : Local α → Local α → Prop
  | mk {st st' : Local α} (now : α) {l : Comm Party α} (h : (c.side.act alg now st).Does l st') :
      LocalStep alg c st st'

/-- What a call does to the map. -/
inductive CallStep (alg : SKaMPIClockOffsetAlg) : MinTimes α → Event α → MinTimes α → Prop
  | absent {c : Call} {m : MinTimes α} (h : ¬ c.takesPart) :
      CallStep alg m { call := c, times := none } m
  | measured {c : Call} {m : MinTimes α} {st : Local α} (h : c.takesPart)
      (hrun : Relation.ReflTransGen (LocalStep alg c)
        (enter c.side.entry (lookupMinTime m (keyStr c.pair)).1) st)
      (hreturned : st.pc = .returned) :
      CallStep alg m
        { call := c
          times := some
            { start := (lookupMinTime m (keyStr c.pair)).1, stored := st.pingPongMinTime } }
        (Function.update (lookupMinTime m (keyStr c.pair)).2 (keyStr c.pair)
          (some st.pingPongMinTime))

/-- A sequence of calls on one new object. -/
inductive Calls (alg : SKaMPIClockOffsetAlg) : List (Event α) → MinTimes α → Prop
  | nil : Calls alg [] fun _ => none
  | snoc {events : List (Event α)} {m m' : MinTimes α} {e : Event α} (h : Calls alg events m)
      (hstep : CallStep alg m e m') : Calls alg (events ++ [e]) m'

/-- Every call starts with what the last call for its pair stored, and the first call for a pair
with an unknown time. -/
def RemembersMinTime (events : List (Event α)) : Prop :=
  ∀ before e after, events = before ++ e :: after → ∀ t, e.times = some t →
    t.start = (Memo.lastStored (stores before) e.call.pair).getD (-1)

/-! ### What the calls do -/

/-- In a run of both sides each of them makes steps of its own. -/
theorem localRun_of_timedReach {alg : SKaMPIClockOffsetAlg} {d : α}
    {s s' : Timed Party α (Local α) α} (h : TimedReach (PingPong.act alg d) s s') (c : Call) :
    Relation.ReflTransGen (LocalStep alg c) (s.config.loc c.side) (s'.config.loc c.side) := by
  induction h with
  | refl => exact .refl
  | tail _ hlast ih =>
    obtain ⟨-, ⟨r, l, st, net, hdo, hnet⟩⟩ := hlast
    refine ih.trans ?_
    dsimp only
    by_cases hside : c.side = r
    · subst hside
      rw [Function.update_self]
      refine .single ?_
      cases hc : c.side with
      | reference =>
        rw [hc] at hdo
        exact .mk _ (by rw [hc]; exact hdo)
      | client =>
        rw [hc] at hdo
        exact .mk _ (by rw [hc]; exact hdo)
    · rw [Function.update_of_ne hside]

section Calls

variable {alg : SKaMPIClockOffsetAlg} {events : List (Event α)} {m m' : MinTimes α} {e : Event α}

/-- The map holds what was stored. -/
theorem CallStep.recalls (hstep : CallStep alg m e m')
    (h : Memo.Recalls keyStr m (stores events)) :
    Memo.Recalls keyStr m' (stores (events ++ [e])) := by
  rw [stores_concat]
  cases hstep with
  | absent => simpa using h
  | @measured c _ st hpart hrun hreturned =>
    have hmap : Function.update (lookupMinTime m (keyStr c.pair)).2 (keyStr c.pair)
        (some st.pingPongMinTime) =
        Function.update m (keyStr c.pair) (some st.pingPongMinTime) := by
      rw [lookupMinTime]
      split
      · rfl
      · exact Function.update_idem _ _ _
    rw [hmap]
    exact h.store keyStr_injective c.pair st.pingPongMinTime

theorem Calls.recalls (h : Calls alg events m) : Memo.Recalls keyStr m (stores events) := by
  induction h with
  | nil => exact Memo.recalls_nil keyStr
  | snoc _ hstep ih => exact hstep.recalls ih

/-- The first call for a pair starts with zero, every later one with an unknown time. -/
theorem CallStep.start_eq (hstep : CallStep alg m e m')
    (h : Memo.Recalls keyStr m (stores events)) {t : Times α} (ht : e.times = some t) :
    t.start = if (Memo.lastStored (stores events) e.call.pair).isSome then -1 else 0 := by
  cases hstep with
  | absent => cases ht
  | @measured c _ st =>
    obtain rfl := Option.some.inj ht
    have hcache := h c.pair
    simp only [lookupMinTime, hcache]
    cases Memo.lastStored (stores events) c.pair with
    | none => rfl
    | some v => rfl

theorem CallStep.times_isSome_iff (hstep : CallStep alg m e m') :
    e.times.isSome = true ↔ e.call.takesPart := by
  cases hstep with
  | absent h => simpa using h
  | measured h => simpa using h

/-- A call of a sequence is a step from the map the calls before it left. -/
theorem Calls.split (h : Calls alg events m) {before after : List (Event α)} {e : Event α}
    (heq : events = before ++ e :: after) :
    ∃ m₁ m₂, Calls alg before m₁ ∧ CallStep alg m₁ e m₂ := by
  induction h generalizing after with
  | nil => exact absurd heq (by simp)
  | @snoc events m m' e' h hstep ih =>
    rcases List.eq_nil_or_concat after with rfl | ⟨after', last, rfl⟩
    · obtain ⟨rfl, hlast⟩ := List.append_inj' heq rfl
      obtain rfl := List.singleton_inj.mp hlast
      exact ⟨m, m', h, hstep⟩
    · rw [List.concat_eq_append, ← List.cons_append, ← List.append_assoc] at heq
      exact ih (List.append_inj' heq rfl).1

theorem Calls.times_isSome_iff (h : Calls alg events m) (he : e ∈ events) :
    e.times.isSome = true ↔ e.call.takesPart := by
  obtain ⟨before, after, heq⟩ := List.append_of_mem he
  obtain ⟨m₁, m₂, -, hstep⟩ := h.split heq
  exact hstep.times_isSome_iff

/-- What the calls of a sequence start with. -/
theorem Calls.start_eq (h : Calls alg events m) {before after : List (Event α)}
    (heq : events = before ++ e :: after) {t : Times α} (ht : e.times = some t) :
    t.start = if (Memo.lastStored (stores before) e.call.pair).isSome then -1 else 0 := by
  obtain ⟨m₁, m₂, hbefore, hstep⟩ := h.split heq
  exact hstep.start_eq hbefore.recalls ht

/-- The times are remembered exactly in the sequences in which the process takes part in no
call: the first call it takes part in starts with zero. -/
theorem Calls.remembersMinTime_iff (h : Calls alg events m) :
    RemembersMinTime events ↔ ∀ e ∈ events, ¬ e.call.takesPart := by
  constructor
  · intro hrem
    by_contra hsome
    push Not at hsome
    cases hfirst : events.find? (fun e => e.call.takesPart) with
    | none =>
      obtain ⟨e, he, hpart⟩ := hsome
      exact List.find?_eq_none.mp hfirst e he (by simpa using hpart)
    | some e =>
      obtain ⟨hpart, before, after, heq, hbefore⟩ := List.find?_eq_some_iff_append.mp hfirst
      have he : e ∈ events := by simp [heq]
      obtain ⟨t, ht⟩ := Option.isSome_iff_exists.mp
        ((h.times_isSome_iff he).mpr (by simpa using hpart))
      have hnone : stores before = [] := by
        rw [stores, List.filterMap_eq_nil_iff]
        intro d hd
        have hd' : d ∈ events := by simp [heq, hd]
        have habsent : ¬ d.call.takesPart := by simpa using hbefore d hd
        rw [Option.not_isSome_iff_eq_none.mp fun h' =>
          habsent ((h.times_isSome_iff hd').mp h')]
        rfl
      have hstart := h.start_eq heq ht
      rw [hrem before e after heq t ht, hnone, Memo.lastStored_nil] at hstart
      exact absurd hstart (by simp)
  · intro hnone before e after heq t ht
    have he : e ∈ events := by simp [heq]
    exact absurd ((h.times_isSome_iff he).mp (by simp [ht])) (hnone e he)

end Calls

/-- The process of rank 0 as the reference of the process of rank 1. -/
def firstCall : Call := { myRank := 0, refRank := 0, clientRank := 1 }

/-- At most two ping-pongs. -/
def twoPingPongs : SKaMPIClockOffsetAlg := ⟨1, 2, by decide⟩

/-- The reference in its first call: at the loop, with a message, and at the end of it. -/
def firstRecv : Local ℚ := ⟨.recv, 2, 1, 0, 1, 1 - 2, 1 - 1, 1, 0, none⟩

def firstRead : Local ℚ := { firstRecv with tLast := 2, pc := .read }

def firstStop : Local ℚ := ⟨.stop, 3, 2, 0, 2, -1, 0, 2, 0, none⟩

theorem firstCall_run : Relation.ReflTransGen (LocalStep twoPingPongs firstCall)
    (enter firstCall.side.entry 0)
    (Local.finish { firstStop with pc := .finish } 4 ((-1 + 0) / 2)) := by
  have hfirst : Relation.ReflTransGen (LocalStep twoPingPongs firstCall)
      (enter firstCall.side.entry 0) firstRecv :=
    .head (.mk 1 (.tau _)) (.head (.mk 1 (.post _ _ _)) (.head (.mk 1 (.flush _ _))
      (.head (.mk 1 (.get _ _ 1)) (.head (.mk 2 (.tau _)) (.head (.mk 2 (.post _ _ _))
      (.single (.mk 2 (.flush _ _))))))))
  have hrecv : LocalStep twoPingPongs firstCall firstRecv firstRead := by
    have hget : (firstCall.side.act twoPingPongs 2 firstRecv).Does (.get .client 2)
        { firstRecv with tLast := 2, pc := if (2 : ℚ) < 0 then .finish else .read } := .get _ _ _
    rw [if_neg (by norm_num)] at hget
    exact .mk 2 hget
  have hread : LocalStep twoPingPongs firstCall firstRead firstStop := by
    have hmeasure : refMeasure twoPingPongs 3 firstRead = .tau firstStop := by
      simp [refMeasure, stopsEarly, Local.narrow, twoPingPongs, firstRead, firstRecv, firstStop]
      norm_num
      rw [CInt.check_of_inRange (by decide)]
      rfl
    exact .mk 3
      (show (refMeasure twoPingPongs 3 firstRead).Does _ _ by rw [hmeasure]; exact .tau _)
  have hstop : Relation.ReflTransGen (LocalStep twoPingPongs firstCall) firstStop
      (Local.finish { firstStop with pc := .finish } 4 ((-1 + 0) / 2)) :=
    .head (.mk 3 (.post _ _ _)) (.head (.mk 3 (.flush _ _)) (.single (.mk 4 (.tau _))))
  exact ((hfirst.tail hrecv).tail hread).trans hstop

/-- A sequence of one call. -/
theorem firstCall_calls : ∃ m stored,
    Calls twoPingPongs
      [{ call := firstCall, times := some { start := (0 : ℚ), stored := stored } }] m := by
  have hstep : CallStep twoPingPongs (fun _ => none)
      { call := firstCall
        times := some { start := (0 : ℚ), stored := (Local.finish _ _ _).pingPongMinTime } } _ :=
    .measured (by decide) firstCall_run rfl
  exact ⟨_, _, .snoc .nil hstep⟩

/-- The first call starts with zero and not with an unknown time. -/
theorem firstCall_not_remembers :
    ∃ (events : List (Event ℚ)) (m : MinTimes ℚ), Calls twoPingPongs events m ∧
      ¬ RemembersMinTime events := by
  obtain ⟨m, stored, h⟩ := firstCall_calls
  refine ⟨_, m, h, fun hrem => ?_⟩
  have hstart : (0 : ℚ) = -1 := hrem [] _ [] rfl _ rfl
  norm_num at hstart

theorem remembersMinTime_iff_firstCall :
    ∃ (events : List (Event ℚ)) (m : MinTimes ℚ), Calls twoPingPongs events m ∧
      (RemembersMinTime events ↔ ∀ e ∈ events, ¬ e.call.takesPart) := by
  obtain ⟨m, stored, h⟩ := firstCall_calls
  exact ⟨_, m, h, h.remembersMinTime_iff⟩

end PingPong

/-! ## The round-trip time -/

namespace PingpongAlg

variable {α : Type} [Field α] [LinearOrder α]

/-- A call of `measure_offset` by the two processes, and what `compute_rtt` would measure in it:
the round-trip times, and what stands in its second array. -/
structure Call (α : Type) where
  refRank : ℤ
  clientRank : ℤ
  fresh : List α
  rtts : List α

def Call.pair (c : Call α) : ℤ × ℤ := rankPair c.refRank c.clientRank

/-- What `compute_rtt` gives to both processes. -/
def Call.measured (G : GslQuantile α) (c : Call α) : α := computeRtt G c.fresh c.rtts

/-- `rankpair2rtt`. -/
abbrev RttCache (α : Type) := List Char → Option α

/-- The lookup: whether `compute_rtt` is called, `rtt` and the map afterwards. -/
structure Lookup (α : Type) where
  measures : Bool
  rtt : α
  rankpair2rtt : RttCache α

def lookupRtt (measured : α) (rankpair2rtt : RttCache α) (key : List Char) : Lookup α :=
  match rankpair2rtt key with
  | some _ =>
    { measures := true, rtt := measured
      rankpair2rtt := Function.update rankpair2rtt key (some measured) }
  | none =>
    { measures := false, rtt := 0, rankpair2rtt := Function.update rankpair2rtt key (some 0) }

/-- A call as it happened: which of the two entered `compute_rtt`, and the `rtt` that the
client subtracts half of. -/
structure Event (α : Type) where
  call : Call α
  refMeasures : Bool
  clientMeasures : Bool
  rtt : α

/-- A call between two processes; every process has an object of its own. -/
def callStep (G : GslQuantile α) (caches : ℤ → RttCache α) (c : Call α) :
    Event α × (ℤ → RttCache α) :=
  let ref := lookupRtt (c.measured G) (caches c.refRank) (keyStr c.pair)
  let client := lookupRtt (c.measured G) (caches c.clientRank) (keyStr c.pair)
  ({ call := c, refMeasures := ref.measures, clientMeasures := client.measures
     rtt := client.rtt },
    Function.update (Function.update caches c.refRank ref.rankpair2rtt) c.clientRank
      client.rankpair2rtt)

/-- A sequence of calls. -/
def runCalls (G : GslQuantile α) (caches : ℤ → RttCache α) : List (Call α) → List (Event α)
  | [] => []
  | c :: calls => (callStep G caches c).1 :: runCalls G (callStep G caches c).2 calls

/-- A sequence of calls on new objects. -/
def events (G : GslQuantile α) (calls : List (Call α)) : List (Event α) :=
  runCalls G (fun _ _ => none) calls

/-- Reference and client measure together, at the first call for their pair, and subtract
in every call what was measured then. -/
def UsesMeasuredRtt (G : GslQuantile α) (events : List (Event α)) : Prop :=
  ∀ before e after, events = before ++ e :: after →
    e.refMeasures = e.clientMeasures ∧
    (e.clientMeasures = true ↔ ∀ d ∈ before, d.call.pair ≠ e.call.pair) ∧
    ∃ first, (before ++ [e]).find? (fun d => d.call.pair = e.call.pair) = some first ∧
      e.rtt = first.call.measured G

/-! ### What the calls do -/

/-- A process knows the pairs of the calls it has taken part in. -/
def Knows (caches : ℤ → RttCache α) (done : List (Call α)) : Prop :=
  ∀ p q, (caches p (keyStr (rankPair p q))).isSome = true ↔ ∃ c ∈ done, c.pair = rankPair p q

section Calls

variable {G : GslQuantile α} {caches : ℤ → RttCache α} {done : List (Call α)}

omit [LinearOrder α] in
theorem measures_lookupRtt (measured : α) (m : RttCache α) (key : List Char) :
    (lookupRtt measured m key).measures = (m key).isSome := by
  rw [lookupRtt]
  split
  · next h => rw [h]; rfl
  · next h => rw [h]; rfl

omit [LinearOrder α] in
theorem rtt_lookupRtt (measured : α) (m : RttCache α) (key : List Char) :
    (lookupRtt measured m key).rtt =
      if (lookupRtt measured m key).measures then measured else 0 := by
  rw [lookupRtt]
  split
  · rfl
  · rfl

omit [LinearOrder α] in
/-- The key that was looked up is in the map afterwards. -/
theorem isSome_lookupRtt (measured : α) (m : RttCache α) (key key' : List Char) :
    ((lookupRtt measured m key).rankpair2rtt key').isSome = true ↔
      key' = key ∨ (m key').isSome = true := by
  rw [lookupRtt]
  by_cases hkey : key' = key
  · subst hkey
    split <;> simp
  · split <;> simp [hkey]

/-- Both partners of a call know its pair or neither does. -/
theorem callStep_event (h : Knows caches done) (c : Call α) :
    (callStep G caches c).1.refMeasures = (callStep G caches c).1.clientMeasures ∧
    ((callStep G caches c).1.clientMeasures = true ↔ ∃ d ∈ done, d.pair = c.pair) ∧
    (callStep G caches c).1.rtt =
      if (callStep G caches c).1.clientMeasures then c.measured G else 0 := by
  have hclient : (caches c.clientRank (keyStr c.pair)).isSome = true ↔
      ∃ d ∈ done, d.pair = c.pair := by
    have hknows := h c.clientRank c.refRank
    rwa [rankPair_comm] at hknows
  have href := h c.refRank c.clientRank
  refine ⟨?_, ?_, rtt_lookupRtt ..⟩
  · simp only [callStep, measures_lookupRtt]
    exact Bool.eq_iff_iff.mpr (href.trans hclient.symm)
  · simp only [callStep, measures_lookupRtt]
    exact hclient

theorem Knows.callStep (h : Knows caches done) (c : Call α) :
    Knows (callStep G caches c).2 (done ++ [c]) := by
  intro p q
  have hpart : (keyStr (rankPair p q) = keyStr c.pair ∨
      (caches p (keyStr (rankPair p q))).isSome = true) ↔
      ∃ d ∈ done ++ [c], d.pair = rankPair p q := by
    rw [keyStr_injective.eq_iff, h p q]
    simp only [List.mem_append, List.mem_singleton]
    constructor
    · rintro (heq | ⟨d, hd, heq⟩)
      · exact ⟨c, .inr rfl, heq.symm⟩
      · exact ⟨d, .inl hd, heq⟩
    · rintro ⟨d, hd | rfl, heq⟩
      · exact .inr ⟨d, hd, heq⟩
      · exact .inl heq.symm
  rw [← hpart]
  simp only [PingpongAlg.callStep]
  by_cases hclient : p = c.clientRank
  · subst hclient
    rw [Function.update_self]
    exact isSome_lookupRtt ..
  · rw [Function.update_of_ne hclient]
    by_cases href : p = c.refRank
    · subst href
      rw [Function.update_self]
      exact isSome_lookupRtt ..
    · rw [Function.update_of_ne href]
      refine ⟨.inr, fun hknown => hknown.resolve_left fun heq => ?_⟩
      rcases rankPair_eq_iff.mp (keyStr_injective heq) with ⟨hp, -⟩ | ⟨hp, -⟩
      · exact href hp
      · exact hclient hp

/-- In every sequence of calls the partners measure together: at every call for a pair but the
first, which subtracts zero. -/
theorem runCalls_spec (h : Knows caches done) {calls : List (Call α)}
    {before after : List (Event α)} {e : Event α}
    (heq : runCalls G caches calls = before ++ e :: after) :
    e.refMeasures = e.clientMeasures ∧
    (e.clientMeasures = true ↔ ∃ d ∈ done ++ before.map Event.call, d.pair = e.call.pair) ∧
    e.rtt = if e.clientMeasures then e.call.measured G else 0 := by
  induction calls generalizing caches done before with
  | nil => exact absurd heq (by simp [runCalls])
  | cons c calls ih =>
    rw [runCalls] at heq
    cases before with
    | nil =>
      obtain ⟨rfl, -⟩ := List.cons.inj heq
      rw [List.map_nil, List.append_nil]
      exact callStep_event h c
    | cons d before =>
      obtain ⟨rfl, hrest⟩ := List.cons.inj heq
      have hspec := ih (h.callStep c) hrest
      rwa [List.append_assoc] at hspec

end Calls

theorem knows_nil {α : Type} : Knows (fun _ _ => none : ℤ → RttCache α) [] := fun p q => by simp

/-- The round-trip time is the measured one in no sequence with a call: the first call measures
nothing and subtracts zero. -/
theorem usesMeasuredRtt_iff (G : GslQuantile α) (calls : List (Call α)) :
    UsesMeasuredRtt G (events G calls) ↔ calls = [] := by
  constructor
  · intro huses
    cases calls with
    | nil => rfl
    | cons c calls =>
      have heq : events G (c :: calls) = [] ++ (callStep G (fun _ _ => none) c).1 ::
          runCalls G (callStep G (fun _ _ => none) c).2 calls := rfl
      obtain ⟨-, hfirst, -⟩ := huses _ _ _ heq
      have hmeasures := hfirst.mpr fun d hd => absurd hd List.not_mem_nil
      have hspec := (runCalls_spec knows_nil heq).2.1.mp hmeasures
      simp at hspec
  · rintro rfl before e after heq
    exact absurd heq (by simp [events, runCalls])

/-- The only call of the processes of ranks 0 and 1, with a round trip of 3. -/
theorem events_not_measured :
    ¬ UsesMeasuredRtt GslQuantile.exact
      (events GslQuantile.exact [{ refRank := 0, clientRank := 1, fresh := [0], rtts := [3] }]) ∧
    (events GslQuantile.exact
      [{ refRank := 0, clientRank := 1, fresh := [0], rtts := [3] }]).map Event.rtt = [0] := by
  refine ⟨fun huses => ?_, rfl⟩
  obtain ⟨-, hfirst, -⟩ := huses [] _ [] rfl
  exact absurd (hfirst.mpr fun d hd => absurd hd List.not_mem_nil) (by decide)

end PingpongAlg

end ReproMPI.Clocks
