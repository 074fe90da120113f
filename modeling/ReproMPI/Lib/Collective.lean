import Mathlib.Tactic
import ReproMPI.Lib.Rounds

/-!
# Successive calls of a collective operation

The processes call a collective operation again and again on the same channels. `Calls` is one
process' side of the history: what it put into the calls it has started, the state of the
call it is in, and what it got out of the calls it has returned from.

A call takes a fixed number of rounds, and round `i` of the call with index `k` is round
`k * rounds + i` of one common schedule. A `Collective` says who sends to whom in round `i`,
what a message of that round holds, and what a process in the call and a returned process
know, all of it relative to what the processes have put into the calls so far. Since these
lists only grow, everything that is said about them has to survive that they grow.

`Collective.Inv` is the invariant of a whole history. What remains to be proved for a single
operation is what one of its steps does within a call.
-/

namespace Fifo

variable {ι α μ σ : Type*}

structure Calls (α σ : Type*) where
  contribs : List α
  cur : Option σ
  results : List α

namespace Calls

def empty : Calls α σ := { contribs := [], cur := none, results := [] }

/-- Another call. -/
def call (v : Calls α σ) (a : α) (st : σ) : Calls α σ :=
  { v with contribs := v.contribs ++ [a], cur := some st }

/-- A step of the call the process is in. -/
def move (v : Calls α σ) (st : σ) : Calls α σ := { v with cur := some st }

/-- The return from the call. -/
def finish (v : Calls α σ) (y : α) : Calls α σ :=
  { v with cur := none, results := v.results ++ [y] }

/-- Every call that was started has returned, apart from the one the process is in. -/
def Balanced (v : Calls α σ) : Prop :=
  v.contribs.length = v.results.length + v.cur.elim 0 fun _ => 1

/-- The position among the rounds of all calls; `f` is the position within a call. -/
def pos (K : ℕ) (f : σ → ℕ) (v : Calls α σ) : ℕ := v.results.length * K + v.cur.elim 0 f

variable {v : Calls α σ} {a y : α} {st : σ} {K k : ℕ} {f : σ → ℕ}

theorem Balanced.length_of_idle (h : v.Balanced) (hidle : v.cur = none) :
    v.contribs.length = v.results.length := by
  rw [Balanced] at h
  rwa [hidle] at h

theorem Balanced.length_of_cur (h : v.Balanced) (hcur : v.cur = some st) :
    v.contribs.length = v.results.length + 1 := by
  rw [Balanced] at h
  rwa [hcur] at h

theorem pos_of_cur (hcur : v.cur = some st) : v.pos K f = v.results.length * K + f st := by
  rw [pos]
  rw [hcur]
  rfl

theorem pos_move (v : Calls α σ) (st : σ) (K : ℕ) (f : σ → ℕ) :
    (v.move st).pos K f = v.results.length * K + f st := rfl

theorem pos_of_idle (hidle : v.cur = none) : v.pos K f = v.results.length * K := by
  rw [pos]
  rw [hidle]
  rfl

theorem pos_mono {g : σ → ℕ} (h : ∀ st, f st ≤ g st) : v.pos K f ≤ v.pos K g := by
  simp only [pos]
  cases v.cur with
  | none => exact le_rfl
  | some st => exact Nat.add_le_add_left (h st) _

theorem pos_le_succ {g : σ → ℕ} (h : ∀ st, f st ≤ g st + 1) : v.pos K f ≤ v.pos K g + 1 := by
  simp only [pos]
  cases v.cur with
  | none => exact Nat.le_succ _
  | some st => exact Nat.add_le_add_left (h st) _

theorem getElem?_contribs_call (h : v.contribs[k]? = some y) :
    (v.call a st).contribs[k]? = some y :=
  (List.getElem?_append_left (List.getElem?_eq_some_iff.mp h).1).trans h

theorem getElem?_results_finish {z : α} (h : (v.finish y).results[k]? = some z) :
    v.results[k]? = some z ∨ k = v.results.length ∧ y = z := by
  rcases lt_trichotomy k v.results.length with hk | rfl | hk
  · rw [finish, List.getElem?_append_left hk] at h
    exact Or.inl h
  · rw [finish, List.getElem?_concat_length] at h
    exact Or.inr ⟨rfl, Option.some.inj h⟩
  · rw [finish, List.getElem?_eq_none (by simpa using hk)] at h
    exact absurd h (by simp)

end Calls

/-- Nothing that was put into a call is missing from the longer histories. -/
def Extends (x x' : ι → List α) : Prop :=
  ∀ (q : ι) (k : ℕ) (u : α), (x q)[k]? = some u → (x' q)[k]? = some u

/-- A collective operation in rounds. In `Msg x k i s m`, `Ok x k r st` and `Result x k r y`
the argument `x` is what the processes have put into the calls, `k` the call and `i` the
round. -/
structure Collective (ι α μ σ : Type*) where
  rounds : ℕ
  dst : ℕ → ι → Option ι
  dst_inj : ∀ {i s s' d}, dst i s = some d → dst i s' = some d → s = s'
  posted : σ → ℕ
  got : σ → ℕ
  Msg : (ι → List α) → ℕ → ℕ → ι → μ → Prop
  Ok : (ι → List α) → ℕ → ι → σ → Prop
  Result : (ι → List α) → ℕ → ι → α → Prop
  msg_mono : ∀ {x x' k i s m}, Extends x x' → Msg x k i s m → Msg x' k i s m
  ok_mono : ∀ {x x' k r st}, Extends x x' → Ok x k r st → Ok x' k r st
  result_mono : ∀ {x x' k r y}, Extends x x' → Result x k r y → Result x' k r y

namespace Collective

variable (C : Collective ι α μ σ)

/-- The schedule of all calls. -/
def schedule : Schedule ι where
  dst g s := C.dst (g % C.rounds) s
  dst_inj := C.dst_inj

theorem schedule_dst {i : ℕ} (hi : i < C.rounds) (k : ℕ) (s : ι) :
    C.schedule.dst (k * C.rounds + i) s = C.dst i s := by
  show C.dst ((k * C.rounds + i) % C.rounds) s = _
  rw [Nat.mul_add_mod_of_lt hi]

def IsMsg (x : ι → List α) (s : ι) (g : ℕ) (m : μ) : Prop :=
  C.Msg x (g / C.rounds) (g % C.rounds) s m

theorem isMsg_iff {i : ℕ} (hi : i < C.rounds) {x : ι → List α} {k : ℕ} {s : ι} {m : μ} :
    C.IsMsg x s (k * C.rounds + i) m ↔ C.Msg x k i s m := by
  have hdiv : (k * C.rounds + i) / C.rounds = k := by
    rw [Nat.mul_comm, Nat.mul_add_div (by omega), Nat.div_eq_of_lt hi, Nat.add_zero]
  rw [IsMsg]
  rw [Nat.mul_add_mod_of_lt hi, hdiv]

/-- What the processes have put into the calls. -/
def inputs (v : ι → Calls α σ) : ι → List α := fun q => (v q).contribs

variable [DecidableEq ι]

/-- The channels hold what the positions of the processes say. -/
def Tracked (x : ι → List α) (v : ι → Calls α σ) (net : Net ι μ) : Prop :=
  Tracks C.schedule (C.IsMsg x) (fun q => (v q).pos C.rounds C.posted)
    (fun q => (v q).pos C.rounds C.got) net

structure Inv (v : ι → Calls α σ) (net : Net ι μ) : Prop where
  balanced : ∀ r, (v r).Balanced
  cur : ∀ r st, (v r).cur = some st → C.Ok (inputs v) (v r).results.length r st
  results : ∀ r k y, (v r).results[k]? = some y → C.Result (inputs v) k r y
  tracked : C.Tracked (inputs v) v net

section Steps

variable {C} {v : ι → Calls α σ} {w : Calls α σ} {net net' : Net ι μ} {r s d : ι} {st st' : σ}
  {a y : α} {m : μ}

theorem inv_empty : C.Inv (fun _ => Calls.empty) Net.empty where
  balanced r := rfl
  cur r st hst := absurd hst (by simp [Calls.empty])
  results r k y hy := absurd hy (by simp [Calls.empty])
  tracked := Tracks.empty (by simp [Calls.empty, Calls.pos]) (by simp [Calls.empty, Calls.pos])

theorem inputs_update (h : w.contribs = (v r).contribs) :
    inputs (Function.update v r w) = inputs v := by
  funext q
  show (Function.update v r w q).contribs = (v q).contribs
  by_cases hq : q = r
  · subst hq
    simpa using h
  · rw [Function.update_of_ne hq]

theorem extends_call (v : ι → Calls α σ) (r : ι) (a : α) (st : σ) :
    Extends (inputs v) (inputs (Function.update v r ((v r).call a st))) := by
  intro q k u hu
  show (Function.update v r ((v r).call a st) q).contribs[k]? = some u
  by_cases hq : q = r
  · subst hq
    rw [Function.update_self]
    exact Calls.getElem?_contribs_call hu
  · rwa [Function.update_of_ne hq]

/-- A step of process `r` that puts nothing into a call. -/
theorem Inv.update (h : C.Inv v net) (hcontribs : w.contribs = (v r).contribs)
    (hbalanced : w.Balanced)
    (hcur : ∀ st, w.cur = some st → C.Ok (inputs v) w.results.length r st)
    (hresults : ∀ k y, w.results[k]? = some y → C.Result (inputs v) k r y)
    (htracked : C.Tracked (inputs v) (Function.update v r w) net') :
    C.Inv (Function.update v r w) net' where
  balanced q := by
    by_cases hq : q = r
    · subst hq
      simpa using hbalanced
    · simpa [hq] using h.balanced q
  cur q st hst := by
    rw [inputs_update hcontribs]
    by_cases hq : q = r
    · subst hq
      rw [Function.update_self] at hst ⊢
      exact hcur st hst
    · rw [Function.update_of_ne hq] at hst ⊢
      exact h.cur q st hst
  results q k y hy := by
    rw [inputs_update hcontribs]
    by_cases hq : q = r
    · subst hq
      rw [Function.update_self] at hy
      exact hresults k y hy
    · rw [Function.update_of_ne hq] at hy
      exact h.results q k y hy
  tracked := by
    rw [inputs_update hcontribs]
    exact htracked

/-- A process starts its next call. -/
theorem Inv.call (h : C.Inv v net) (hidle : (v r).cur = none)
    (hok : ∀ x k, (x r)[k]? = some a → C.Ok x k r st) (hposted : C.posted st = 0)
    (hgot : C.got st = 0) : C.Inv (Function.update v r ((v r).call a st)) net where
  balanced q := by
    by_cases hq : q = r
    · subst hq
      have hlen := (h.balanced q).length_of_idle hidle
      simp [Calls.Balanced, Calls.call, hlen]
    · simpa [hq] using h.balanced q
  cur q st' hst' := by
    by_cases hq : q = r
    · subst hq
      rw [Function.update_self] at hst' ⊢
      obtain rfl : st = st' := Option.some.inj hst'
      apply hok
      show (Function.update v q ((v q).call a st) q).contribs[(v q).results.length]? = some a
      rw [Function.update_self, ← (h.balanced q).length_of_idle hidle]
      exact List.getElem?_concat_length
    · rw [Function.update_of_ne hq] at hst' ⊢
      exact C.ok_mono (extends_call v r a st) (h.cur q st' hst')
  results q k y hy := by
    have hy' : (v q).results[k]? = some y := by
      by_cases hq : q = r
      · subst hq
        rwa [Function.update_self] at hy
      · rwa [Function.update_of_ne hq] at hy
    exact C.result_mono (extends_call v r a st) (h.results q k y hy')
  tracked := by
    have htracks := h.tracked.mono fun _ _ _ => C.msg_mono (extends_call v r a st)
    apply htracks.stay (f := fun _ => Calls.pos C.rounds C.posted)
      (g := fun _ => Calls.pos C.rounds C.got)
    · rw [Calls.pos_of_idle hidle, Calls.pos_of_cur rfl, hposted]
      rfl
    · rw [Calls.pos_of_idle hidle, Calls.pos_of_cur rfl, hgot]
      rfl

/-- A process returns from its call. -/
theorem Inv.finish (h : C.Inv v net) (hcur : (v r).cur = some st) (hposted : C.posted st = C.rounds)
    (hgot : C.got st = C.rounds) (hresult : C.Result (inputs v) (v r).results.length r y) :
    C.Inv (Function.update v r ((v r).finish y)) net := by
  apply h.update (w := (v r).finish y) rfl
  · have hlen := (h.balanced r).length_of_cur hcur
    simp [Calls.Balanced, Calls.finish, hlen]
  · exact fun _ hst => absurd hst (by simp [Calls.finish])
  · intro k z hz
    rcases Calls.getElem?_results_finish hz with hz | ⟨rfl, rfl⟩
    · exact h.results r k z hz
    · exact hresult
  · apply h.tracked.stay (f := fun _ => Calls.pos C.rounds C.posted)
      (g := fun _ => Calls.pos C.rounds C.got)
    · rw [Calls.pos_of_cur hcur, Calls.pos_of_idle rfl, hposted]
      simp [Calls.finish, Nat.succ_mul]
    · rw [Calls.pos_of_cur hcur, Calls.pos_of_idle rfl, hgot]
      simp [Calls.finish, Nat.succ_mul]

theorem Inv.moved (h : C.Inv v net) (hcur : (v r).cur = some st)
    (hok : C.Ok (inputs v) (v r).results.length r st')
    (htracked : C.Tracked (inputs v) (Function.update v r ((v r).move st')) net') :
    C.Inv (Function.update v r ((v r).move st')) net' := by
  apply h.update (w := (v r).move st') rfl
  · exact (h.balanced r).length_of_cur hcur
  · intro st'' hst''
    obtain rfl : st' = st'' := Option.some.inj hst''
    exact hok
  · exact h.results r
  · exact htracked

/-- A step without communication; the process may pass over rounds it has no part in. -/
theorem Inv.skip (h : C.Inv v net) (hcur : (v r).cur = some st)
    (hok : C.Ok (inputs v) (v r).results.length r st')
    (hposted : C.posted st ≤ C.posted st') (hgot : C.got st ≤ C.got st')
    (hposted_le : C.posted st' ≤ C.rounds) (hgot_le : C.got st' ≤ C.rounds)
    (hpost : ∀ i, C.posted st ≤ i → i < C.posted st' → C.dst i r = none)
    (hget : ∀ i s, C.got st ≤ i → i < C.got st' → C.dst i s ≠ some r) :
    C.Inv (Function.update v r ((v r).move st')) net := by
  apply h.moved hcur hok
  apply h.tracked.localStep (f := fun _ => Calls.pos C.rounds C.posted)
    (g := fun _ => Calls.pos C.rounds C.got)
  · rw [Calls.pos_of_cur hcur, Calls.pos_move]
    exact Nat.add_le_add_left hposted _
  · rw [Calls.pos_of_cur hcur, Calls.pos_move]
    exact Nat.add_le_add_left hgot _
  · intro n hn hn'
    rw [Calls.pos_of_cur hcur] at hn
    rw [Calls.pos_move] at hn'
    obtain ⟨i, rfl⟩ := Nat.exists_eq_add_of_le (Nat.le_of_add_right_le hn)
    rw [C.schedule_dst (by omega)]
    exact hpost i (by omega) (by omega)
  · intro n s hn hn'
    rw [Calls.pos_of_cur hcur] at hn
    rw [Calls.pos_move] at hn'
    obtain ⟨i, rfl⟩ := Nat.exists_eq_add_of_le (Nat.le_of_add_right_le hn)
    rw [C.schedule_dst (by omega)]
    exact hget i s (by omega) (by omega)

theorem Inv.stay (h : C.Inv v net) (hcur : (v r).cur = some st)
    (hok : C.Ok (inputs v) (v r).results.length r st')
    (hposted : C.posted st' = C.posted st) (hgot : C.got st' = C.got st) :
    C.Inv (Function.update v r ((v r).move st')) net := by
  apply h.moved hcur hok
  apply h.tracked.stay (f := fun _ => Calls.pos C.rounds C.posted)
    (g := fun _ => Calls.pos C.rounds C.got)
  · rw [Calls.pos_of_cur hcur, Calls.pos_move, hposted]
  · rw [Calls.pos_of_cur hcur, Calls.pos_move, hgot]

/-- The post of a round. -/
theorem Inv.post (h : C.Inv v net) (hcur : (v r).cur = some st)
    (hok : C.Ok (inputs v) (v r).results.length r st') (hlt : C.posted st < C.rounds)
    (hdst : C.dst (C.posted st) r = some d)
    (hm : C.Msg (inputs v) (v r).results.length (C.posted st) r m)
    (hposted : C.posted st' = C.posted st + 1) (hgot : C.got st' = C.got st) :
    C.Inv (Function.update v r ((v r).move st')) (net.post r d m) := by
  apply h.moved hcur hok
  apply h.tracked.localPost (f := fun _ => Calls.pos C.rounds C.posted)
    (g := fun _ => Calls.pos C.rounds C.got)
  · rw [Calls.pos_of_cur hcur, C.schedule_dst hlt]
    exact hdst
  · rw [Calls.pos_of_cur hcur, C.isMsg_iff hlt]
    exact hm
  · rw [Calls.pos_of_cur hcur, Calls.pos_move, hposted, Nat.add_assoc]
  · rw [Calls.pos_of_cur hcur, Calls.pos_move, hgot]

/-- The get of a round, with what is known about the message. -/
theorem Inv.get (h : C.Inv v net) (hcur : (v r).cur = some st) (hlt : C.got st < C.rounds)
    (hdst : C.dst (C.got st) s = some r) (hm : (net.sent s r)[net.rcvd s r]? = some m)
    (hok : C.Msg (inputs v) (v r).results.length (C.got st) s m →
      C.Ok (inputs v) (v r).results.length r st')
    (hposted : C.posted st' = C.posted st) (hgot : C.got st' = C.got st + 1) :
    C.Inv (Function.update v r ((v r).move st')) (net.take s r) := by
  have hpos : (v r).pos C.rounds C.got = (v r).results.length * C.rounds + C.got st :=
    Calls.pos_of_cur hcur
  obtain ⟨_, hmsg, htracked⟩ := h.tracked.localGet
    (f := fun _ => Calls.pos C.rounds C.posted) (g := fun _ => Calls.pos C.rounds C.got)
    (x := (v r).move st') (by rw [hpos, C.schedule_dst hlt]; exact hdst) hm
    (by rw [Calls.pos_of_cur hcur, Calls.pos_move, hposted])
    (by rw [Calls.pos_of_cur hcur, Calls.pos_move, hgot, Nat.add_assoc])
  rw [hpos, C.isMsg_iff hlt] at hmsg
  exact h.moved hcur (hok hmsg) htracked

end Steps

section Progress

variable {C} {v : ι → Calls α σ} {net : Net ι μ} {q r s d : ι} {st : σ} {k : ℕ}

/-- How far a process is: the rounds of all calls it has posted and got in. -/
def far (C : Collective ι α μ σ) (v : Calls α σ) : ℕ :=
  v.pos C.rounds C.posted + v.pos C.rounds C.got

/-- When everybody has started call `k` and somebody is still in it, then among those the
one that is furthest behind is behind everybody. -/
theorem Inv.exists_furthest_behind (h : C.Inv v net) (hstarted : ∀ r, k < (v r).contribs.length)
    (P : σ → Prop)
    (hle : ∀ r st, (v r).cur = some st → C.posted st ≤ C.rounds ∧ C.got st ≤ C.rounds)
    (hdone : ∀ r st, (v r).cur = some st → ¬ P st → C.posted st = C.rounds ∧ C.got st = C.rounds)
    (hq : (v q).results.length = k) (hcur : (v q).cur = some st) (hst : P st) :
    ∃ r st, (v r).results.length = k ∧ (v r).cur = some st ∧ P st ∧
      ∀ s, C.far (v r) ≤ C.far (v s) := by
  obtain ⟨r, ⟨hr, st', hcur', hst'⟩, hmin⟩ := (measure fun r => C.far (v r)).wf.has_min
    {r | (v r).results.length = k ∧ ∃ st, (v r).cur = some st ∧ P st} ⟨q, hq, st, hcur, hst⟩
  refine ⟨r, st', hr, hcur', hst', fun s => ?_⟩
  have hsucc : (k + 1) * C.rounds = k * C.rounds + C.rounds := Nat.succ_mul _ _
  have hfar : C.far (v r) ≤ 2 * ((k + 1) * C.rounds) := by
    obtain ⟨hp, hg⟩ := hle r st' hcur'
    simp only [far]
    rw [Calls.pos_of_cur hcur', Calls.pos_of_cur hcur', hr]
    omega
  have hlate (hs : k + 1 ≤ (v s).results.length) : C.far (v r) ≤ C.far (v s) := by
    have hmul : (k + 1) * C.rounds ≤ (v s).results.length * C.rounds :=
      Nat.mul_le_mul_right _ hs
    simp only [far, Calls.pos] at hfar ⊢
    omega
  have hbalanced := h.balanced s
  have hstart := hstarted s
  cases hs : (v s).cur with
  | none =>
    have hlen := hbalanced.length_of_idle hs
    exact hlate (by omega)
  | some u =>
    have hlen := hbalanced.length_of_cur hs
    by_cases hk : (v s).results.length = k
    · by_cases hu : P u
      · exact Nat.le_of_not_lt (hmin s ⟨hk, u, hs, hu⟩)
      · obtain ⟨hp, hg⟩ := hdone s u hs hu
        have hfar' : C.far (v s) = 2 * ((k + 1) * C.rounds) := by
          simp only [far]
          rw [Calls.pos_of_cur hs, Calls.pos_of_cur hs, hk, hp, hg]
          omega
        exact hfar'.symm ▸ hfar
    · exact hlate (by omega)

/-- A process that is as far as `r`, which has posted in its round and not got in it yet, but
has not got in more rounds than `r`, is in the same round of the same call. -/
theorem Inv.same_position (h : C.Inv v net) (hcur : (v r).cur = some st)
    (hstarted : (v r).results.length < (v d).contribs.length)
    (hr : C.posted st = C.got st + 1) (hlt : C.got st < C.rounds)
    (hd : ∀ st, C.posted st ≤ C.got st + 1) (hfar : C.far (v r) ≤ C.far (v d))
    (hgot : (v d).pos C.rounds C.got ≤ (v r).pos C.rounds C.got) :
    ∃ u, (v d).cur = some u ∧ (v d).results.length = (v r).results.length ∧
      C.posted u = C.posted st ∧ C.got u = C.got st := by
  have hsucc : (v d).pos C.rounds C.posted ≤ (v d).pos C.rounds C.got + 1 := Calls.pos_le_succ hd
  have hposted_r : (v r).pos C.rounds C.posted = (v r).results.length * C.rounds + C.posted st :=
    Calls.pos_of_cur hcur
  have hgot_r : (v r).pos C.rounds C.got = (v r).results.length * C.rounds + C.got st :=
    Calls.pos_of_cur hcur
  have hnot_later : (v d).results.length ≤ (v r).results.length := by
    by_contra hlater
    have hmul : ((v r).results.length + 1) * C.rounds ≤ (v d).results.length * C.rounds :=
      Nat.mul_le_mul_right _ (by omega)
    rw [Nat.succ_mul] at hmul
    simp only [Calls.pos] at hgot hgot_r
    omega
  cases hcurd : (v d).cur with
  | none =>
    have hlen := (h.balanced d).length_of_idle hcurd
    omega
  | some u =>
    have hlen := (h.balanced d).length_of_cur hcurd
    have hsame : (v d).results.length = (v r).results.length := by omega
    have hposted_d : (v d).pos C.rounds C.posted =
        (v r).results.length * C.rounds + C.posted u := hsame ▸ Calls.pos_of_cur hcurd
    have hgot_d : (v d).pos C.rounds C.got = (v r).results.length * C.rounds + C.got u :=
      hsame ▸ Calls.pos_of_cur hcurd
    simp only [far] at hfar
    exact ⟨u, rfl, hsame, by omega, by omega⟩

theorem Inv.receivable (h : C.Inv v net) (hcur : (v r).cur = some st) (hlt : C.got st < C.rounds)
    (hdst : C.dst (C.got st) s = some r) (hr : C.got st < C.posted st)
    (hs : ∀ st, C.got st ≤ C.posted st) (hfar : C.far (v r) ≤ C.far (v s)) :
    ∃ m, (net.sent s r)[net.rcvd s r]? = some m := by
  apply h.tracked.receivable
  · rw [Calls.pos_of_cur hcur, C.schedule_dst hlt]
    exact hdst
  · rw [Calls.pos_of_cur hcur, Calls.pos_of_cur hcur]
    exact Nat.add_lt_add_left hr _
  · exact Calls.pos_mono hs
  · exact hfar

theorem Inv.completable (h : C.Inv v net) (hcur : (v r).cur = some st)
    (hr : C.posted st ≤ C.got st) (hd : ∀ st, C.posted st ≤ C.got st + 1)
    (hfar : C.far (v r) ≤ C.far (v d)) : net.rcvd r d = (net.sent r d).length := by
  apply h.tracked.completable
  · rw [Calls.pos_of_cur hcur, Calls.pos_of_cur hcur]
    exact Nat.add_le_add_left hr _
  · exact Calls.pos_le_succ hd
  · exact hfar

end Progress

section Single

/-! Every process makes one call. -/

variable {C} {x : ι → α} {loc : ι → σ} {net : Net ι μ}

def single (x : ι → α) (loc : ι → σ) (r : ι) : Calls α σ :=
  { contribs := [x r], cur := some (loc r), results := [] }

theorem single_update (x : ι → α) (loc : ι → σ) (r : ι) (st : σ) :
    (single x (Function.update loc r st) : ι → Calls α σ) =
      Function.update (single x loc) r ((single x loc r).move st) := by
  funext q
  by_cases hq : q = r
  · subst hq
    simp [single, Calls.move]
  · simp [single, hq]

theorem inv_single (hok : ∀ r, C.Ok (fun q => [x q]) 0 r (loc r))
    (hposted : ∀ r, C.posted (loc r) = 0) (hgot : ∀ r, C.got (loc r) = 0) :
    C.Inv (single x loc) Net.empty where
  balanced r := rfl
  cur r st hst := by
    obtain rfl : loc r = st := Option.some.inj hst
    exact hok r
  results r k y hy := absurd hy (by simp [single])
  tracked := by
    apply Tracks.empty
    · intro r
      rw [Calls.pos_of_cur rfl, hposted]
      exact Nat.zero_mul _
    · intro r
      rw [Calls.pos_of_cur rfl, hgot]
      exact Nat.zero_mul _

/-- Nothing is in flight when everybody is through. -/
theorem Inv.drained (h : C.Inv (single x loc) net) (hposted : ∀ r, C.posted (loc r) = C.rounds)
    (hgot : ∀ r, C.got (loc r) = C.rounds) (s d : ι) : net.rcvd s d = (net.sent s d).length := by
  apply h.tracked.flushed
  intro g hg _
  rw [Calls.pos_of_cur rfl, hposted] at hg
  rw [Calls.pos_of_cur rfl, hgot]
  exact hg

/-- A process that is through has received one message in each of its rounds. -/
theorem Inv.rcvd_eq (h : C.Inv (single x loc) net) {d : ι} (hgot : C.got (loc d) = C.rounds)
    (s : ι) : net.rcvd s d = (C.schedule.rounds s d C.rounds).length := by
  rw [h.tracked.rcvd, Calls.pos_of_cur rfl, hgot]
  show (C.schedule.rounds s d (0 * C.rounds + C.rounds)).length = _
  rw [Nat.zero_mul, Nat.zero_add]

end Single

end Collective

end Fifo
