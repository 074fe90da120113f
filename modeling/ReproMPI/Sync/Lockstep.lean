import Mathlib.Tactic
import ReproMPI.Sync.RoundTimePace

/-!
# Lockstep under round-time synchronization

The invariant of the system is that of every process together with the invariants of the two
collective operations on their channels. The flags of a round are the same on all processes,
because the allreduce is one, and the flags determine the rest.

No process waits for ever: of those that have work left, one that has come the least far can
go on.
-/

namespace ReproMPI.Sync.RoundTime

open Fifo Bench Allreduce

variable {p : ℕ} {T : Type}

/-! ## The flag of a round -/

theorem measFlag_isValid (packet : Packet) :
    (measFlag packet).IsValid ↔ packet 0 = invalidOf false := by
  show _ ↔ packet 0 = MeasurementFlag.correctMeasurement.code
  rw [measFlag]
  split_ifs with h1 h0 h0
  · exact iff_of_true (Or.inr rfl) h0
  · exact iff_of_false (by decide) h0
  · exact iff_of_false (by decide) h0
  · exact iff_of_true (Or.inl rfl) (not_not.mp h0)

theorem measFlag_isOutOfTime (packet : Packet) :
    (measFlag packet).IsOutOfTime ↔ packet 1 = stopFlagOf true := by
  show _ ↔ packet 1 = 1
  rw [measFlag]
  split_ifs with h1 h0 h0
  · exact iff_of_true (Or.inl rfl) h1
  · exact iff_of_true (Or.inr rfl) h1
  · exact iff_of_false (by decide) h1
  · exact iff_of_false (by decide) h1

theorem reduction_max (l : List ℤ) : reduction max l = l.max? := by
  cases l <;> rfl

/-- The reduced packet has the maximum of each entry. -/
theorem reduction_packet {e : Fin p → Report} {y : Packet}
    (h : reduction mpiMax (List.ofFn fun q => (e q).packet) = some y) (j : Fin 2) :
    (∀ q, (e q).packet j ≤ y j) ∧ ∃ q, (e q).packet j = y j := by
  have hmax : (List.ofFn fun q => (e q).packet j).max? = some (y j) := by
    have hj := reduction_elementwise h j
    rw [List.map_ofFn, reduction_max] at hj
    exact hj
  obtain ⟨hmem, hle⟩ := List.max?_eq_some_iff.mp hmax
  constructor
  · exact fun q => hle _ (List.mem_ofFn.mpr ⟨q, rfl⟩)
  · obtain ⟨q, hq⟩ := List.mem_ofFn.mp hmem
    exact ⟨q, hq⟩

theorem measFlag_reduction {e : Fin p → Report} {y : Packet}
    (h : reduction mpiMax (List.ofFn fun q => (e q).packet) = some y) :
    ((measFlag y).IsValid ↔ ∀ q, (e q).late = false) ∧
      ((measFlag y).IsOutOfTime ↔ ∃ q, (e q).timedOut = true) := by
  obtain ⟨hle0, q0, hq0⟩ := reduction_packet h 0
  obtain ⟨hle1, q1, hq1⟩ := reduction_packet h 1
  have hpacket0 (q : Fin p) : (e q).packet 0 = invalidOf (e q).late := rfl
  have hpacket1 (q : Fin p) : (e q).packet 1 = stopFlagOf (e q).timedOut := rfl
  rw [measFlag_isValid, measFlag_isOutOfTime]
  constructor
  · constructor
    · intro hy q
      have hle := hle0 q
      rw [hy, hpacket0] at hle
      cases hlate : (e q).late with
      | false => rfl
      | true =>
        rw [hlate] at hle
        exact absurd hle (by decide)
    · intro hlate
      rw [← hq0, hpacket0, hlate]
  · constructor
    · intro hy
      refine ⟨q1, ?_⟩
      rw [hy, hpacket1] at hq1
      cases hover : (e q1).timedOut with
      | true => rfl
      | false =>
        rw [hover] at hq1
        exact absurd hq1 (by decide)
    · rintro ⟨q, hover⟩
      have hle := hle1 q
      rw [hpacket1, hover] at hle
      rw [hpacket1] at hq1
      cases hover1 : (e q1).timedOut with
      | true => rw [← hq1, hover1]
      | false =>
        rw [← hq1, hover1] at hle
        exact absurd hle (by decide)

/-! ## One step -/

structure Inv (S : Setup p T) (w : World p T) : Prop where
  ok : ∀ r, (w.loc r).Ok S r
  paced : ∀ r, (w.loc r).Paced S
  bcasts : (Bcast.collective T p).Inv (fun q => (w.loc q).bcasts) w.bcastNet
  reduces : (Allreduce.collective mpiMax p).Inv (fun q => (w.loc q).reduces) w.reduceNet

section Steps

variable {S : Setup p T} {w w' : World p T} {r : Fin p} {st : Process T} {k : ℕ} {y : Packet}
  {bcastNet : Net (Fin p) T} {reduceNet : Net (Fin p) Packet}

theorem Inv.set (h : Inv S w) (hok : st.Ok S r) (hpaced : st.Paced S)
    (hbcasts : (Bcast.collective T p).Inv
      (Function.update (fun q => (w.loc q).bcasts) r st.bcasts) bcastNet)
    (hreduces : (Allreduce.collective mpiMax p).Inv
      (Function.update (fun q => (w.loc q).reduces) r st.reduces) reduceNet) :
    Inv S { loc := Function.update w.loc r st, bcastNet := bcastNet, reduceNet := reduceNet } where
  ok q := by
    by_cases hq : q = r
    · subst hq
      simpa using hok
    · simpa [hq] using h.ok q
  paced q := by
    by_cases hq : q = r
    · subst hq
      simpa using hpaced
    · simpa [hq] using h.paced q
  bcasts := by
    show (Bcast.collective T p).Inv (Process.bcasts ∘ Function.update w.loc r st) bcastNet
    rw [Function.comp_update]
    exact hbcasts
  reduces := by
    show (Allreduce.collective mpiMax p).Inv (Process.reduces ∘ Function.update w.loc r st)
      reduceNet
    rw [Function.comp_update]
    exact hreduces

theorem Inv.bcasts_same (h : Inv S w) (hst : st.bcasts = (w.loc r).bcasts) :
    (Bcast.collective T p).Inv
      (Function.update (fun q => (w.loc q).bcasts) r st.bcasts) w.bcastNet := by
  rw [hst, Function.update_eq_self]
  exact h.bcasts

theorem Inv.reduces_same (h : Inv S w) (hst : st.reduces = (w.loc r).reduces) :
    (Allreduce.collective mpiMax p).Inv
      (Function.update (fun q => (w.loc q).reduces) r st.reduces) w.reduceNet := by
  rw [hst, Function.update_eq_self]
  exact h.reduces

/-- What an allreduce returns is the reduction of what is on record of its round. -/
theorem Inv.reported (h : Inv S w)
    (hy : (Allreduce.collective mpiMax p).Result
      (Collective.inputs fun q => (w.loc q).reduces) k r y) :
    ∃ e : Fin p → Report, (∀ q, (w.loc q).reports[k]? = some (e q)) ∧
      reduction mpiMax (List.ofFn fun q => (e q).packet) = some y := by
  obtain ⟨u, hu, hred⟩ := reduction_of_fold hy
  have hreport (q : Fin p) : ∃ e, (w.loc q).reports[k]? = some e ∧ e.packet = u q := by
    have huq : (w.loc q).reduces.contribs[k]? = some (u q) := hu q
    rw [(h.ok q).contribs, List.getElem?_map] at huq
    exact Option.map_eq_some_iff.mp huq
  choose e he hpacket using hreport
  refine ⟨e, he, ?_⟩
  rw [show (fun q => (e q).packet) = u from funext hpacket]
  exact hred

theorem Inv.start [Zero T] (S : Setup p T) : Inv S World.start where
  ok r := .start S r
  paced _ := .start S
  bcasts := Collective.inv_empty
  reduces := Collective.inv_empty

theorem Inv.run [Sub T] [LE T] [DecidableLE T] (h : Inv S w)
    (hnext : S.next r (w.loc r) = some st) :
    Inv S { w with loc := Function.update w.loc r st } := by
  have hok := h.ok r
  have hpaced := h.paced r
  cases Setup.localStep_of_next hnext with
  | beginJob hpc hjob =>
    exact h.set (hok.beginJob hpc hjob) (hpaced.beginJob hpc hjob) (h.bcasts_same rfl)
      (h.reduces_same rfl)
  | enterBarrier hpc =>
    exact h.set (hok.enterBarrier hpc) (hpaced.enterBarrier hpc) (h.bcasts_same rfl)
      (h.reduces_same rfl)
  | @endBcast b hpc hcur hret =>
    exact h.set (hok.endBcast hpc b.buffer) (hpaced.endBcast hpc b.buffer)
      (Bcast.inv_finish h.bcasts hcur hret) (h.reduces_same rfl)
  | spin hpc =>
    exact h.set (hok.spin hpc) (hpaced.spin hpc) (h.bcasts_same rfl) (h.reduces_same rfl)
  | measure hpc =>
    exact h.set (hok.measure hpc) (hpaced.measure hpc) (h.bcasts_same rfl) (h.reduces_same rfl)
  | beginStop hpc =>
    have hidle : (w.loc r).reduces.cur = none := hok.no_reduce (by simp [hpc])
    exact h.set (hok.beginStop hpc) (hpaced.beginStop hpc) (h.bcasts_same rfl)
      (inv_call h.reduces hidle none _)
  | @endStop a hpc hcur hret =>
    have haok : a.Ok mpiMax (contrib (Collective.inputs fun q => (w.loc q).reduces)
      (w.loc r).reduces.results.length) r := h.reduces.cur r a hcur
    -- the flag is the maximum over all ranks, so it counts what this rank reported
    obtain ⟨e, he, hred⟩ := h.reported (haok.returned hret).2
    refine h.set (hok.endStop hpc a.recvbuf ?_) (hpaced.endStop hok hpc a.recvbuf)
      (h.bcasts_same (Setup.endStop_bcasts _ _)) ?_
    · intro e' he' hover
      have hlen : (w.loc r).flags.length = (w.loc r).reduces.results.length := by
        rw [hok.flags, List.length_map]
      rw [hlen, he r] at he'
      obtain rfl := Option.some.inj he'
      exact (measFlag_reduction hred).2.mpr ⟨r, hover⟩
    · rw [Setup.endStop_reduces]
      exact inv_finish h.reduces hcur hret

theorem Inv.leaveBarrier [Add T] (h : Inv S w) (hpc : (w.loc r).pc = .barrier) :
    Inv S { w with loc := Function.update w.loc r (S.leaveBarrier r (w.loc r)) } := by
  have hidle : (w.loc r).bcasts.cur = none := (h.ok r).no_bcast (by simp [hpc])
  apply h.set ((h.ok r).leaveBarrier hpc) ((h.paced r).leaveBarrier (h.ok r) hpc)
  · rw [Setup.leaveBarrier]
    split_ifs
    · exact h.bcasts_same rfl
    · exact Bcast.inv_call h.bcasts hidle _
    · exact Bcast.inv_call h.bcasts hidle _
  · apply h.reduces_same
    rw [Setup.leaveBarrier]
    split_ifs <;> rfl

/-- Processes are in an operation only where their program calls it. -/
theorem Process.Ok.pc_of_bcast (h : st.Ok S r) {b : Bcast T} (hcur : st.bcasts.cur = some b) :
    st.pc = .bcast := by
  by_contra hne
  rw [h.no_bcast hne] at hcur
  exact absurd hcur (by simp)

theorem Process.Ok.pc_of_reduce (h : st.Ok S r) {a : Allreduce Packet}
    (hcur : st.reduces.cur = some a) : st.pc = .allreduce := by
  by_contra hne
  rw [h.no_reduce hne] at hcur
  exact absurd hcur (by simp)

theorem Inv.step [Add T] [Sub T] [LE T] [DecidableLE T] (h : Inv S w) (hp : p ≤ 2 ^ 30)
    (hstep : S.Step w w') : Inv S w' := by
  cases hstep with
  | run r st hnext => exact h.run hnext
  | leaveBarrier r hpc hall => exact h.leaveBarrier hpc
  | bcast r b b' l net hcur hdo hnet =>
    apply h.set ((h.ok r).moveBcast ((h.ok r).pc_of_bcast hcur) b') ((h.paced r).moveBcast b')
    · exact Bcast.inv_move h.bcasts hp rfl hcur hdo hnet
    · exact h.reduces_same rfl
  | reduce r a a' l net hcur hdo hnet =>
    apply h.set ((h.ok r).moveReduce ((h.ok r).pc_of_reduce hcur) a') ((h.paced r).moveReduce a')
    · exact h.bcasts_same rfl
    · exact inv_move h.reduces hp hcur hdo hnet

theorem inv_of_reachable [Zero T] [Add T] [Sub T] [LE T] [DecidableLE T] (hp : p ≤ 2 ^ 30)
    (hw : S.Reachable w) : Inv S w := by
  have hrun : Relation.ReflTransGen S.Step World.start w := hw
  clear hw
  induction hrun with
  | refl => exact .start S
  | tail _ hstep ih => exact ih.step hp hstep

end Steps

/-! ## Agreement -/

/-- Two lists of optional values with gaps at the same places whose values agree in order. -/
theorem getElem?_of_filterMap {α : Type} {l m : List (Option α)} {k : ℕ} {t : α}
    (hgaps : ∀ (k : ℕ) (a b : Option α), l[k]? = some a → m[k]? = some b → a.isSome = b.isSome)
    (hvalues : ∀ (j : ℕ) (y : α), (l.filterMap id)[j]? = some y → (m.filterMap id)[j]? = some y)
    (hk : l[k]? = some (some t)) : m[k]? = some (some t) := by
  induction l generalizing m k with
  | nil => exact absurd hk (by simp)
  | cons a l ih =>
    cases m with
    | nil =>
      have hmem : t ∈ (a :: l).filterMap id :=
        List.mem_filterMap.mpr ⟨some t, List.mem_of_getElem? hk, rfl⟩
      obtain ⟨j, hj⟩ := List.mem_iff_getElem?.mp hmem
      exact absurd (hvalues j t hj) (by simp)
    | cons b m =>
      have htail : ∀ (k : ℕ) (a b : Option α), l[k]? = some a → m[k]? = some b →
          a.isSome = b.isSome := fun k => hgaps (k + 1)
      have hhead : a.isSome = b.isSome := hgaps 0 a b rfl rfl
      cases a with
      | none =>
        obtain rfl : b = none := by simpa using hhead.symm
        cases k with
        | zero => exact absurd hk (by simp)
        | succ k =>
          show m[k]? = some (some t)
          exact ih htail hvalues hk
      | some a =>
        obtain ⟨b, rfl⟩ := Option.isSome_iff_exists.mp hhead.symm
        obtain rfl : b = a := Option.some.inj (hvalues 0 a rfl)
        cases k with
        | zero => exact hk
        | succ k =>
          show m[k]? = some (some t)
          exact ih htail (fun j => hvalues (j + 1)) hk

theorem Pc.started_le_one (pc : Pc) : pc.started ≤ 1 := by
  simp only [Pc.started]
  split <;> omega

theorem Pc.computed_le_one (pc : Pc) : pc.computed ≤ 1 := by
  simp only [Pc.computed]
  split <;> omega

section Agreement

variable {S : Setup p T} {w : World p T} {r q : Fin p} {k : ℕ}

theorem Inv.defined (h : Inv S w) (hp : p ≤ 2 ^ 30) (r : Fin p) : ¬ Undefined r (w.loc r) := by
  rintro (⟨b, hcur, hfail⟩ | ⟨a, hcur, hfail⟩)
  · have hok : b.Ok _ r := h.bcasts.cur r b hcur
    exact hok.act_ne_fail hp rfl hfail
  · have hok : a.Ok mpiMax _ r := h.reduces.cur r a hcur
    exact hok.act_ne_fail hp hfail

/-- The flag of a round comes from the reports of that round. -/
theorem Inv.flag (h : Inv S w) {f : MeasurementFlag} (hf : (w.loc r).flags[k]? = some f) :
    ∃ (e : Fin p → Report) (y : Packet), (∀ q, (w.loc q).reports[k]? = some (e q)) ∧
      reduction mpiMax (List.ofFn fun q => (e q).packet) = some y ∧ f = measFlag y := by
  rw [(h.ok r).flags, List.getElem?_map] at hf
  obtain ⟨y, hy, rfl⟩ := Option.map_eq_some_iff.mp hf
  obtain ⟨e, he, hred⟩ := h.reported (h.reduces.results r k y hy)
  exact ⟨e, y, he, hred, rfl⟩

theorem Inv.same_flag (h : Inv S w) {f g : MeasurementFlag}
    (hf : (w.loc r).flags[k]? = some f) (hg : (w.loc q).flags[k]? = some g) : f = g := by
  obtain ⟨e, y, he, hred, rfl⟩ := h.flag hf
  obtain ⟨e', y', he', hred', rfl⟩ := h.flag hg
  obtain rfl : e = e' := funext fun q => Option.some.inj ((he q).symm.trans (he' q))
  rw [Option.some.inj (hred.symm.trans hred')]

theorem Inv.take_flags (h : Inv S w) (hr : k ≤ (w.loc r).flags.length)
    (hq : k ≤ (w.loc q).flags.length) :
    (w.loc r).flags.take k = (w.loc q).flags.take k := by
  apply List.ext_getElem
  · rw [List.length_take_of_le hr, List.length_take_of_le hq]
  · intro i hi hi'
    rw [List.getElem_take, List.getElem_take]
    exact h.same_flag (List.getElem?_eq_getElem _) (List.getElem?_eq_getElem _)

/-- The processes are in the same mode in the same round. -/
theorem Inv.same_mode (h : Inv S w) {l m : List (Option T)} {i j : ℕ} {a b : Option T}
    (hl : S.Logged (w.loc r).flags ((w.loc r).flags.length + i) l) (hi : i ≤ 1)
    (hm : S.Logged (w.loc q).flags ((w.loc q).flags.length + j) m) (hj : j ≤ 1)
    (ha : l[k]? = some a) (hb : m[k]? = some b) : a.isSome = b.isSome := by
  have hkl := (List.getElem?_eq_some_iff.mp ha).1
  have hkm := (List.getElem?_eq_some_iff.mp hb).1
  have hlen := hl.1
  have hlen' := hm.1
  rw [hl.2 k a ha, hm.2 k b hb]
  have htake : (w.loc r).flags.take k = (w.loc q).flags.take k :=
    h.take_flags (by omega) (by omega)
  simp only [Setup.modeAt]
  rw [htake]

theorem Inv.masters_start (h : Inv S w) {t : T} (ht : (w.loc r).starts[k]? = some (some t)) :
    (w.loc (master r)).computed[k]? = some (some t) := by
  have hr := h.ok r
  have hm := h.ok (master r)
  apply getElem?_of_filterMap _ _ ht
  · intro k a b ha hb
    exact h.same_mode hr.starts (Pc.started_le_one _) (hm.computed rfl) (Pc.computed_le_one _) ha hb
  · intro j y hy
    have hresult : (w.loc r).bcasts.results[j]? = some y := by
      rw [hr.waited, List.getElem?_append_left (List.getElem?_eq_some_iff.mp hy).1]
      exact hy
    have hinput : Bcast.rootInput _ j = some y := h.bcasts.results r j y hresult
    rw [Bcast.rootInput_of_val _ j (r := master r) rfl] at hinput
    rw [← hm.sent rfl]
    exact hinput

theorem Inv.same_start (h : Inv S w) {a b : Option T} (ha : (w.loc r).starts[k]? = some a)
    (hb : (w.loc q).starts[k]? = some b) : a = b := by
  have hsome := h.same_mode (h.ok r).starts (Pc.started_le_one _) (h.ok q).starts
    (Pc.started_le_one _) ha hb
  cases a with
  | none =>
    obtain rfl : b = none := by simpa using hsome.symm
    rfl
  | some t =>
    obtain ⟨u, rfl⟩ := Option.isSome_iff_exists.mp hsome.symm
    have hr := h.masters_start ha
    have hq := h.masters_start hb
    exact Option.some.inj (hr.symm.trans hq)

theorem Process.Ok.leaves {st : Process T} (h : st.Ok S r) :
    st.leaves = (S.replay st.flags).leaves := by
  by_cases hpc : st.pc = .job
  · exact congrArg Control.leaves (h.idle hpc)
  · rw [← Setup.enter_leaves (S := S)]
    exact congrArg Control.leaves (h.busy hpc)

theorem Inv.leaves_prefix (h : Inv S w)
    (hle : (w.loc r).flags.length ≤ (w.loc q).flags.length) :
    (w.loc r).leaves <+: (w.loc q).leaves := by
  have htake := h.take_flags le_rfl hle
  rw [List.take_length] at htake
  rw [(h.ok r).leaves, (h.ok q).leaves, ← List.take_append_drop (w.loc r).flags.length
    (w.loc q).flags, ← htake]
  exact Setup.leaves_prefix_replay _ _

theorem Inv.same_leave (h : Inv S w) {a b : Leave} (ha : (w.loc r).leaves[k]? = some a)
    (hb : (w.loc q).leaves[k]? = some b) : a = b := by
  wlog hle : (w.loc r).flags.length ≤ (w.loc q).flags.length generalizing r q a b
  · exact (this hb ha (Nat.le_of_not_le hle)).symm
  obtain ⟨rest, hrest⟩ := h.leaves_prefix hle
  rw [← hrest, List.getElem?_append_left (List.getElem?_eq_some_iff.mp ha).1, ha] at hb
  exact Option.some.inj hb

end Agreement

/-! ## Progress -/

/-- The order of the statements of a round, as far as others wait for them. -/
def Pc.phase : Pc → ℕ
  | .job | .start => 0
  | .barrier => 1
  | .bcast => 2
  | .spin _ | .measure | .stop => 3
  | .allreduce => 4

theorem Pc.entered_of_phase (pc : Pc) (h : 1 ≤ pc.phase) : pc.entered = 1 := by
  cases pc <;> simp_all [phase, entered]

theorem Pc.computed_of_phase (pc : Pc) (h : 2 ≤ pc.phase) : pc.computed = 1 := by
  cases pc <;> simp_all [phase, computed]

theorem Pc.reported_of_phase (pc : Pc) (h : 4 ≤ pc.phase) : pc.reported = 1 := by
  cases pc <;> simp_all [phase, reported]

theorem Pc.phase_lt (pc : Pc) : pc.phase < 5 := by
  cases pc <;> simp [phase]

def Process.far (st : Process T) : ℕ := st.flags.length * 5 + st.pc.phase

section Progress

variable {S : Setup p T} {w : World p T} {r q : Fin p}

/-- A process without a job left has seen a round that the others have not. -/
theorem Inv.lt_of_finished (h : Inv S w) (hr : S.Finished (w.loc r)) (hq : ¬ S.Finished (w.loc q)) :
    (w.loc q).flags.length < (w.loc r).flags.length := by
  have hidle : (w.loc r).control = S.replay (w.loc r).flags := (h.ok r).idle hr.1
  have hexhausted : (S.enter (S.replay (w.loc r).flags)).inJob = false := by
    rw [← hidle]
    simp [Setup.enter, Process.control, hr.1, hr.2]
  by_contra hle
  have htake := h.take_flags le_rfl (Nat.le_of_not_lt hle)
  rw [List.take_length] at htake
  rcases Nat.lt_or_eq_of_le (Nat.le_of_not_lt hle) with hlt | heq
  · have hround := (h.paced q).rounds _ hlt
    rw [← htake, hexhausted] at hround
    exact absurd hround (by simp)
  · rw [heq, List.take_length] at htake
    by_cases hpc : (w.loc q).pc = .job
    · have hsame : (w.loc q).control = (w.loc r).control := by
        rw [(h.ok q).idle hpc, hidle, htake]
      have hindex : (w.loc q).jindex = (w.loc r).jindex := congrArg Control.jindex hsame
      exact hq ⟨hpc, hindex ▸ hr.2⟩
    · have hbusy := (h.ok q).busy hpc
      rw [← htake] at hbusy
      have hin := congrArg Control.inJob hbusy
      rw [hexhausted] at hin
      exact absurd hin (by simp [Process.control, hpc])

/-- Everybody has started the broadcast of a process that has come the least far. -/
theorem Inv.bcast_started (h : Inv S w) (hpc : (w.loc r).pc = .bcast)
    (hfar : (w.loc r).far ≤ (w.loc q).far) :
    (w.loc r).bcasts.results.length < (w.loc q).bcasts.contribs.length := by
  obtain ⟨b, hcur⟩ := Option.isSome_iff_exists.mp ((h.paced r).in_bcast hpc)
  have hlen : (w.loc r).bcasts.contribs.length = (w.loc r).bcasts.results.length + 1 :=
    (h.bcasts.balanced r).length_of_cur hcur
  have hr : (w.loc r).bcasts.contribs.length =
      S.clockRounds (w.loc r).flags ((w.loc r).flags.length + 1) := by
    simpa [hpc, Pc.computed] using (h.paced r).casts
  have hahead : (w.loc r).flags.length + 1 ≤ (w.loc q).flags.length + (w.loc q).pc.computed := by
    have hlt := (w.loc q).pc.phase_lt
    have hcomputed := Pc.computed_of_phase (w.loc q).pc
    have hphase : (w.loc r).pc.phase = 2 := by rw [hpc]; rfl
    simp only [Process.far] at hfar
    omega
  have hle := Pc.computed_le_one (w.loc q).pc
  calc (w.loc r).bcasts.results.length
      < S.clockRounds (w.loc r).flags ((w.loc r).flags.length + 1) := by omega
    _ = S.clockRounds (w.loc q).flags ((w.loc r).flags.length + 1) :=
        Setup.clockRounds_congr fun k hk => h.take_flags (by omega) (by omega)
    _ ≤ S.clockRounds (w.loc q).flags ((w.loc q).flags.length + (w.loc q).pc.computed) :=
        Setup.clockRounds_mono hahead
    _ = (w.loc q).bcasts.contribs.length := (h.paced q).casts.symm

theorem Inv.reduce_started (h : Inv S w) (hpc : (w.loc r).pc = .allreduce)
    (hfar : (w.loc r).far ≤ (w.loc q).far) :
    (w.loc r).reduces.results.length < (w.loc q).reduces.contribs.length := by
  obtain ⟨a, hcur⟩ := Option.isSome_iff_exists.mp ((h.paced r).in_reduce hpc)
  have hlen : (w.loc r).reduces.contribs.length = (w.loc r).reduces.results.length + 1 :=
    (h.reduces.balanced r).length_of_cur hcur
  have hcontribs (s : Fin p) : (w.loc s).reduces.contribs.length =
      (w.loc s).flags.length + (w.loc s).pc.reported := by
    rw [(h.ok s).contribs, List.length_map, (h.ok s).reports]
  have hr := hcontribs r
  have hq := hcontribs q
  have hlt := (w.loc q).pc.phase_lt
  have hphase : (w.loc r).pc.phase = 4 := by rw [hpc]; rfl
  have hreported := Pc.reported_of_phase (w.loc r).pc hphase.ge
  have hreported' := Pc.reported_of_phase (w.loc q).pc
  simp only [Process.far] at hfar
  omega

theorem Inv.canStep [Add T] [Sub T] [LE T] [DecidableLE T] (h : Inv S w) (hp : p ≤ 2 ^ 30)
    (hq : ¬ S.Finished (w.loc q)) : S.CanStep w := by
  -- the process furthest behind can go on, or somebody inside its call can
  obtain ⟨r, hr, hmin⟩ := (measure fun r => (w.loc r).far).wf.has_min
    {r | ¬ S.Finished (w.loc r)} ⟨q, hq⟩
  have hfar (s : Fin p) : (w.loc r).far ≤ (w.loc s).far := by
    by_cases hs : S.Finished (w.loc s)
    · have hlt := h.lt_of_finished hs hr
      have hphase := (w.loc r).pc.phase_lt
      simp only [Process.far]
      omega
    · exact Nat.le_of_not_lt (hmin s hs)
  cases hpc : (w.loc r).pc with
  | job =>
    obtain ⟨job, hjob⟩ := Option.ne_none_iff_exists'.mp fun hnone => hr ⟨hpc, hnone⟩
    exact ⟨r, Or.inl (by simp [Setup.next, hpc, hjob])⟩
  | barrier =>
    refine ⟨r, Or.inr (Or.inl ⟨hpc, fun s => ?_⟩)⟩
    have hle := hfar s
    have hlt := (w.loc s).pc.phase_lt
    have hphase : (w.loc r).pc.phase = 1 := by rw [hpc]; rfl
    have hentered := Pc.entered_of_phase (w.loc r).pc hphase.ge
    have hentered' := Pc.entered_of_phase (w.loc s).pc
    rw [(h.paced r).entered, (h.paced s).entered]
    simp only [Process.far] at hle
    omega
  | bcast =>
    obtain ⟨b, hcur⟩ := Option.isSome_iff_exists.mp ((h.paced r).in_bcast hpc)
    by_cases hret : b.pc = .returned
    · exact ⟨r, Or.inl (by simp [Setup.next, hpc, hcur, hret])⟩
    · have hroot : (master r : ℕ) = 0 := rfl
      obtain ⟨s, b', hcur', hmove⟩ := Bcast.inv_canMove h.bcasts hp hroot
        (fun s => h.bcast_started hpc (hfar s)) hcur hret
      exact ⟨s, Or.inr (Or.inr (Or.inl ⟨b', hcur', hmove⟩))⟩
  | allreduce =>
    obtain ⟨a, hcur⟩ := Option.isSome_iff_exists.mp ((h.paced r).in_reduce hpc)
    by_cases hret : a.pc = .returned
    · exact ⟨r, Or.inl (by simp [Setup.next, hpc, hcur, hret])⟩
    · obtain ⟨s, a', hcur', hmove⟩ := inv_canMove h.reduces hp
        (fun s => h.reduce_started hpc (hfar s)) hcur hret
      exact ⟨s, Or.inr (Or.inr (Or.inr ⟨a', hcur', hmove⟩))⟩
  | _ => exact ⟨r, Or.inl (by simp [Setup.next, hpc])⟩

theorem Inv.all_left (h : Inv S w) (hr : S.Finished (w.loc r)) :
    (w.loc r).leaves.length = S.jobs.length := by
  have hle := (h.paced r).jindex
  have hge := List.getElem?_eq_none_iff.mp hr.2
  rw [(h.paced r).leaves]
  omega

/-- Where `CanStep` holds, the system has a next state. -/
theorem Setup.CanStep.exists_step [Zero T] [Add T] [Sub T] [LE T] [DecidableLE T]
    (h : S.CanStep w) : ∃ w', S.Step w w' := by
  obtain ⟨r, hnext | ⟨hpc, hall⟩ | ⟨b, hcur, l, b', net, hdo, hnet, _⟩ |
    ⟨a, hcur, l, a', net, hdo, hnet, _⟩⟩ := h
  · obtain ⟨st, hst⟩ := Option.isSome_iff_exists.mp hnext
    exact ⟨_, .run w r st hst⟩
  · exact ⟨_, .leaveBarrier w r hpc hall⟩
  · exact ⟨_, .bcast w r b b' l net hcur hdo hnet⟩
  · exact ⟨_, .reduce w r a a' l net hcur hdo hnet⟩

end Progress

section Main

variable [Zero T] [Add T] [Sub T] [LE T] [DecidableLE T]

/-- Up to `2 ^ 30` processes stay in lockstep. -/
theorem lockstep (S : Setup p T) (hp : p ≤ 2 ^ 30) : Lockstep S where
  defined _ hw := (inv_of_reachable hp hw).defined hp
  same_start _ hw _ _ _ _ _ := (inv_of_reachable hp hw).same_start
  masters_start _ hw _ _ _ := (inv_of_reachable hp hw).masters_start
  same_flag _ hw _ _ _ _ _ := (inv_of_reachable hp hw).same_flag
  flag_meaning _ hw _ _ _ hf := by
    obtain ⟨e, y, he, hred, rfl⟩ := (inv_of_reachable hp hw).flag hf
    exact ⟨e, he, measFlag_reduction hred⟩
  same_leave _ hw _ _ _ _ _ := (inv_of_reachable hp hw).same_leave
  all_left _ hw _ := (inv_of_reachable hp hw).all_left
  progress _ hw := fun ⟨_, hr⟩ => (inv_of_reachable hp hw).canStep hp hr

/-- Three processes with different clocks, a job in clock mode and one in barrier mode. -/
theorem lockstep_three :
    Lockstep (p := 3) (T := ℤ)
      { jobs := [{ nRep := 2, count := 1 }, { nRep := 1, count := 8 }], switchCount := 4,
        timeSlot := fun _ => 100, bcastTime := 3, globalTime := fun _ _ t => t,
        clock := fun r n => n + r } :=
  lockstep _ (by decide)

end Main

section Overflow

/-- One barrier-mode job on one process too many. -/
def hugeSetup : Setup (2 ^ 30 + 1) ℤ :=
  { jobs := [{ nRep := 1, count := 0 }], switchCount := 0, timeSlot := fun _ => 1, bcastTime := 0,
    globalTime := fun _ _ t => t, clock := fun _ _ => 0 }

/-- A process that has entered the barrier of the first round. -/
def arrived (r : Fin (2 ^ 30 + 1)) : Process ℤ :=
  Setup.enterBarrier (hugeSetup.beginJob r .start { nRep := 1, count := 0 })

theorem reachable_arrived : hugeSetup.Reachable { World.start with loc := arrived } := by
  have hsome : ∀ s : Finset (Fin (2 ^ 30 + 1)),
      hugeSetup.Reachable { World.start with loc := s.piecewise arrived fun _ => .start } := by
    intro s
    induction s using Finset.induction_on with
    | empty =>
      rw [Finset.piecewise_empty]
      exact .refl
    | insert r s hr ih =>
      have hbegin : hugeSetup.next r (s.piecewise arrived (fun _ => .start) r) =
          some (hugeSetup.beginJob r .start { nRep := 1, count := 0 }) := by
        rw [Finset.piecewise_eq_of_notMem s _ _ hr]
        rfl
      have henter : hugeSetup.next r (Function.update (s.piecewise arrived fun _ => .start) r
          (hugeSetup.beginJob r .start { nRep := 1, count := 0 }) r) = some (arrived r) := by
        rw [Function.update_self]
        rfl
      have hrun := Setup.Reachable.run (ih.run hbegin) henter
      rw [Function.update_idem] at hrun
      rw [Finset.piecewise_insert]
      exact hrun
  have huniv := hsome Finset.univ
  rwa [Finset.piecewise_univ] at huniv

def last : Fin (2 ^ 30 + 1) := ⟨2 ^ 30, by decide⟩

/-- The last process in its first allreduce, before the loop. -/
def lastReducing : Process ℤ :=
  let st := hugeSetup.beginStop last
    (hugeSetup.measure last (hugeSetup.leaveBarrier last (arrived last)))
  { st with reduces := st.reduces.move ((start none ![0, 0]).enter (2 ^ 30 + 1)) }

theorem reachable_lastReducing :
    ∃ w, hugeSetup.Reachable w ∧ w.loc last = lastReducing := by
  have hleave := reachable_arrived.tail (.leaveBarrier _ last rfl fun _ => le_rfl)
  have hmeasure := Setup.Reachable.run (r := last) hleave (by
    simp only [Function.update_self]
    rfl)
  have hstop := Setup.Reachable.run (r := last) hmeasure (by
    simp only [Function.update_self]
    rfl)
  have hreduce := hstop.tail (.reduce _ last (start none ![0, 0]) _ .tau _ (by
    simp only [Function.update_self]
    rfl) (.tau _) (.tau _))
  refine ⟨_, hreduce, ?_⟩
  simp only [Function.update_self]
  rfl

theorem lastReducing_undefined : Undefined last lastReducing := by
  let a : Allreduce Packet := (start none ![0, 0]).enter (2 ^ 30 + 1)
  have hbit : a.bit ≠ 0 := by decide +kernel
  -- the receiver of the last rank is computed from `2 ^ 30 - 1 + (2 ^ 30 + 1)`
  have hchoose : (a.choose (last : ℕ) (2 ^ 30 + 1 : ℕ)).isNone = true := by decide +kernel
  refine Or.inr ⟨a, rfl, ?_⟩
  have hpc : a.pc = .loop := rfl
  rw [act]
  rw [hpc]
  simp only [hbit, if_false, Option.isNone_iff_eq_none.mp hchoose]

/-- With one process more, `rank - c1 + size` overflows for the last rank. -/
theorem not_lockstep : ¬ Lockstep hugeSetup := by
  intro h
  obtain ⟨w, hw, hlast⟩ := reachable_lastReducing
  apply h.defined w hw last
  rw [hlast]
  exact lastReducing_undefined

end Overflow
end ReproMPI.Sync.RoundTime
