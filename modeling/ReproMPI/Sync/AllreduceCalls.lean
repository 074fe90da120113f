import Mathlib.Tactic
import ReproMPI.Lib.Collective
import ReproMPI.Sync.Allreduce

/-!
# Successive allreduces

Processes that call the allreduce one after the other share the channels of its tag, and a
process can already be in a later call than its partners. `collective` says what a message,
a running call and a result hold, and `inv_move` that every step of a call preserves this.

A single call of every process is the case at the end.
-/

namespace ReproMPI.Sync.Allreduce

open Fifo SegmentFold Circulant

/-- The reduction of a list, from left to right. -/
def reduction {α : Type*} (op : α → α → α) : List α → Option α
  | [] => none
  | x :: xs => some (xs.foldl op x)

variable {V : Type} {p : ℕ}

/-- The rounds of its call a process has posted in. -/
def posted (st : Allreduce V) : ℕ :=
  match st.pc with
  | .entry => 0
  | .loop | .returned => st.round
  | .recv | .flush => st.round + 1

/-- The rounds of its call a process has got its message in. -/
def got (st : Allreduce V) : ℕ :=
  match st.pc with
  | .entry => 0
  | .loop | .recv | .returned => st.round
  | .flush => st.round + 1

/-- The contribution to call `k` of rank `j % p`. -/
def contrib (x : Fin p → List V) (k j : ℕ) : Option V :=
  if h : 0 < p then (x ⟨j % p, Nat.mod_lt _ h⟩)[k]? else none

section Contributions

variable {op : V → V → V} {x x' : Fin p → List V} {k : ℕ} {r : Fin p} {y : V}

theorem contrib_val (x : Fin p → List V) (k : ℕ) (r : Fin p) : contrib x k r = (x r)[k]? := by
  rw [contrib]
  rw [dif_pos r.pos]
  congr 2
  exact Fin.ext (Nat.mod_eq_of_lt r.isLt)

theorem contrib_add (x : Fin p → List V) (k j : ℕ) : contrib x k (j + p) = contrib x k j := by
  simp only [contrib]
  simp only [Nat.add_mod_right]

theorem contrib_mono (h : Extends x x') (j : ℕ) (u : V) (hu : contrib x k j = some u) :
    contrib x' k j = some u := by
  rw [contrib] at hu ⊢
  split at hu
  · next hp =>
    rw [dif_pos hp]
    exact h _ _ _ hu
  · exact absurd hu (by simp)

/-- What the partner sends starts right behind what the receiver has. -/
theorem fold_above (op : V → V → V) (x : Fin p → List V) (k i : ℕ) (r : Fin p) (m : ℕ) :
    fold (lift op) (contrib x k) (above r (distAt p i) + offsetAt p i) m =
      fold (lift op) (contrib x k) (r + c0At p i + 1) m := by
  rw [← fold_mod (contrib_add x k) (above r (distAt p i) + offsetAt p i)]
  show fold _ _ (((r + distAt p i) % p + offsetAt p i) % p) m = _
  rw [Nat.mod_add_mod, Nat.add_assoc, distAt_add_offsetAt, ← Nat.add_assoc,
    fold_mod (contrib_add x k)]

/-- A complete segment holds every process' contribution once. -/
theorem reduction_of_fold [Std.Associative op] [Std.Commutative op]
    (h : fold (lift op) (contrib x k) r (p - 1) = some y) :
    ∃ u : Fin p → V, (∀ q, (x q)[k]? = some (u q)) ∧ reduction op (List.ofFn u) = some y := by
  obtain ⟨n, rfl⟩ : ∃ n, p = n + 1 := Nat.exists_eq_succ_of_ne_zero r.pos.ne'
  rw [Nat.add_sub_cancel, fold_rotate (contrib_add x k)] at h
  have hall (q : Fin (n + 1)) : ∃ u, (x q)[k]? = some u := by
    obtain ⟨u, hu⟩ := isSome_of_fold_lift h (Nat.le_of_lt_succ q.isLt)
    rw [Nat.zero_add, contrib_val] at hu
    exact ⟨u, hu⟩
  choose u hu using hall
  refine ⟨u, hu, ?_⟩
  have hcontrib : fold (lift op) (contrib x k) 0 n =
      fold (lift op) (fun j => some (u (Fin.ofNat (n + 1) j))) 0 n := by
    apply fold_congr
    intro j hj
    rw [Nat.zero_add, ← hu, ← contrib_val]
    congr 1
    exact (Nat.mod_eq_of_lt (Nat.lt_succ_of_le hj)).symm
  rw [hcontrib, fold_lift_some, fold_zero_eq_foldl] at h
  rw [← h, List.ofFn_succ]
  show some ((List.ofFn fun j : Fin n => u j.succ).foldl op (u 0)) = _
  have hlist : (List.ofFn fun j : Fin n => u j.succ) =
      (List.range' 1 n).map fun j => u (Fin.ofNat (n + 1) j) := by
    apply List.ext_getElem
    · simp
    · intro j hj hj'
      simp only [List.getElem_ofFn, List.getElem_map, List.getElem_range']
      congr 1
      apply Fin.ext
      show j + 1 = (1 + 1 * j) % (n + 1)
      have hjn : j < n := by simpa using hj
      rw [Nat.mod_eq_of_lt (by omega)]
      omega
  rw [hlist, List.foldl_map]
  rfl

end Contributions

/-! ## One step -/

def collective (op : V → V → V) (p : ℕ) : Collective (Fin p) V V (Allreduce V) where
  rounds := nrounds p
  dst := dst p
  dst_inj := dst_inj
  posted := posted
  got := got
  Msg x k i s m := fold (lift op) (contrib x k) (s + offsetAt p i) (distAt p i - 1) = some m
  Ok x k r st := st.Ok op (contrib x k) r
  Result x k r y := fold (lift op) (contrib x k) r (p - 1) = some y
  msg_mono hx := fold_lift_mono (contrib_mono hx)
  ok_mono hx h := h.mono (contrib_mono hx)
  result_mono hx := fold_lift_mono (contrib_mono hx)

section Steps

variable {op : V → V → V} {v : Fin p → Calls V (Allreduce V)} {net net' : Net (Fin p) V}
  {r : Fin p} {st st' : Allreduce V} {l : Comm (Fin p) V}

theorem inv_call (h : (collective op p).Inv v net) (hidle : (v r).cur = none)
    (sendbuf : Option V) (recvbuf : V) :
    (collective op p).Inv
      (Function.update v r ((v r).call (sendbuf.getD recvbuf) (start sendbuf recvbuf))) net := by
  apply h.call hidle
  · intro x k hk
    exact (contrib_val x k r).trans hk
  · rfl
  · rfl

theorem inv_move [Std.Associative op] [Std.Commutative op] (h : (collective op p).Inv v net)
    (hp : p ≤ 2 ^ 30) (hcur : (v r).cur = some st) (hdo : (st.act op r).Does l st')
    (hnet : net.Step r l net') :
    (collective op p).Inv (Function.update v r ((v r).move st')) net' := by
  have hok : st.Ok op (contrib (Collective.inputs v) (v r).results.length) r := h.cur r st hcur
  cases hpc : st.pc with
  | entry =>
    obtain ⟨hact, hok'⟩ := hok.act_entry hp hpc
    rw [hact] at hdo
    cases hdo
    cases hnet
    apply h.stay hcur
    · exact hok'
    · simp [collective, posted, hpc, enter]
    · simp [collective, got, hpc, enter]
  | loop =>
    have hposted : (collective op p).posted st = st.round := by simp [collective, posted, hpc]
    by_cases hi : st.round < nrounds p
    · obtain ⟨m, st'', hact, hok', hpc', hround, hfold⟩ := hok.act_post hp hpc hi
      rw [hact] at hdo
      cases hdo
      cases hnet
      apply h.post hcur hok'
      · rw [hposted]
        exact hi
      · rw [hposted]
        rfl
      · rw [hposted]
        exact hfold
      · simp [collective, posted, hpc, hpc', hround]
      · simp [collective, got, hpc, hpc', hround]
    -- the loop is left: nothing is sent any more
    · have hle := (hok.loop hpc).round_le
      obtain ⟨hact, hok'⟩ := hok.act_done hp hpc (by omega)
      rw [hact] at hdo
      cases hdo
      cases hnet
      apply h.stay hcur
      · exact hok'
      · simp [collective, posted, hpc]
      · simp [collective, got, hpc]
  | recv =>
    have hgot : (collective op p).got st = st.round := by simp [collective, got, hpc]
    obtain ⟨hi, hact, hnext⟩ := hok.act_get hpc
    rw [hact] at hdo
    cases hdo with
    | get _ _ m =>
    cases hnet with
    | get _ _ hm =>
    obtain ⟨hround, hok'⟩ := hnext m
    apply h.get hcur _ _ hm
    -- the message is the fold over the ranks from the sender on
    · intro hmsg
      rw [hgot] at hmsg
      exact hok' ((fold_above op _ _ _ r _).symm.trans hmsg)
    · simp [collective, posted, hpc, hround]
    · simp [collective, got, hpc, hround]
    · rw [hgot]
      exact hi
    · rw [hgot]
      exact dst_above hi r
  | flush =>
    obtain ⟨_, st'', hact, hok', hpc', hround⟩ := hok.act_flush hp hpc
    rw [hact] at hdo
    cases hdo
    cases hnet
    apply h.stay hcur hok'
    · simp [collective, posted, hpc, hpc', hround]
    · simp [collective, got, hpc, hpc', hround]
  | returned =>
    rw [act] at hdo
    rw [hpc] at hdo
    cases hdo

theorem inv_finish (h : (collective op p).Inv v net) (hcur : (v r).cur = some st)
    (hpc : st.pc = .returned) :
    (collective op p).Inv (Function.update v r ((v r).finish st.recvbuf)) net := by
  have hok : st.Ok op (contrib (Collective.inputs v) (v r).results.length) r := h.cur r st hcur
  obtain ⟨hround, hfold⟩ := hok.returned hpc
  apply h.finish hcur
  · simp [collective, posted, hpc, hround]
  · simp [collective, got, hpc, hround]
  · exact hfold

end Steps

/-! ## Progress -/

theorem got_le_posted (st : Allreduce V) : st.got ≤ st.posted := by
  rw [got, posted]
  cases st.pc <;> simp

theorem posted_le_got_succ (st : Allreduce V) : st.posted ≤ st.got + 1 := by
  rw [got, posted]
  cases st.pc <;> simp

theorem Ok.positions {op : V → V → V} {z : ℕ → Option V} {r : Fin p} {st : Allreduce V}
    (h : st.Ok op z r) :
    st.posted ≤ nrounds p ∧ st.got ≤ nrounds p ∧
      (st.pc = .returned → st.posted = nrounds p ∧ st.got = nrounds p) := by
  rw [posted, got]
  cases hpc : st.pc with
  | entry => simp
  | loop => simp [(h.loop hpc).round_le]
  | recv =>
    have hi := (h.act_get hpc).1
    simp only [reduceCtorEq, false_implies, and_true]
    omega
  | flush =>
    have hi := (h.received hpc).2.1.round_lt
    simp only [reduceCtorEq, false_implies, and_true]
    omega
  | returned => simp [(h.returned hpc).1]

/-- When everybody has started a call and somebody is in it, somebody can go on with it. -/
theorem inv_canMove {op : V → V → V} [Std.Associative op] [Std.Commutative op]
    {v : Fin p → Calls V (Allreduce V)} {net : Net (Fin p) V} {q : Fin p} {st : Allreduce V}
    (h : (collective op p).Inv v net) (hp : p ≤ 2 ^ 30)
    (hstarted : ∀ r, (v q).results.length < (v r).contribs.length)
    (hcur : (v q).cur = some st) (hst : st.pc ≠ .returned) :
    ∃ r st, (v r).cur = some st ∧ CanMove net r (st.act op r) := by
  have hok (r : Fin p) (st : Allreduce V) (hcur : (v r).cur = some st) :
    st.Ok op (contrib (Collective.inputs v) (v r).results.length) r := h.cur r st hcur
  -- nobody can be waiting for a process that is further behind than all others
  obtain ⟨r, st, _, hcur, hst, hmin⟩ := h.exists_furthest_behind hstarted
    (fun st => st.pc ≠ .returned)
    (fun r st hcur => ⟨(hok r st hcur).positions.1, (hok r st hcur).positions.2.1⟩)
    (fun r st hcur hst => (hok r st hcur).positions.2.2 (not_not.mp hst)) rfl hcur hst
  refine ⟨r, st, hcur, ?_⟩
  cases hpc : st.pc with
  | entry =>
    rw [((hok r st hcur).act_entry hp hpc).1]
    exact canMove_tau _ _ _
  | loop =>
    by_cases hi : st.round < nrounds p
    · obtain ⟨m, st', hact, _⟩ := (hok r st hcur).act_post hp hpc hi
      rw [hact]
      exact canMove_post _ _ _ _ _
    · have hle := ((hok r st hcur).loop hpc).round_le
      rw [((hok r st hcur).act_done hp hpc (by omega)).1]
      exact canMove_tau _ _ _
  | recv =>
    obtain ⟨hi, hact, _⟩ := (hok r st hcur).act_get hpc
    have hgot : (collective op p).got st = st.round := by simp [collective, got, hpc]
    have hposted : (collective op p).posted st = st.round + 1 := by
      simp [collective, posted, hpc]
    rw [hact]
    apply canMove_get
    apply h.receivable hcur
    · rw [hgot]
      exact hi
    · rw [hgot]
      exact dst_above hi r
    · omega
    · exact got_le_posted
    · exact hmin _
  | flush =>
    obtain ⟨_, st', hact, _⟩ := (hok r st hcur).act_flush hp hpc
    have hgot : (collective op p).got st = st.round + 1 := by simp [collective, got, hpc]
    have hposted : (collective op p).posted st = st.round + 1 := by
      simp [collective, posted, hpc]
    rw [hact]
    apply canMove_flush
    apply h.completable hcur
    · omega
    · exact posted_le_got_succ
    · exact hmin _
  | returned => exact absurd hpc hst

/-- The steps a process still makes: three in each round. -/
def stepsLeft (p : ℕ) (st : Allreduce V) : ℕ :=
  match st.pc with
  | .entry => 3 * nrounds p + 2
  | .loop => 3 * (nrounds p - st.round) + 1
  | .recv => 3 * (nrounds p - st.round)
  | .flush => 3 * (nrounds p - st.round) - 1
  | .returned => 0

theorem Ok.stepsLeft_lt {op : V → V → V} [Std.Associative op] [Std.Commutative op]
    {z : ℕ → Option V} {r : Fin p} {st st' : Allreduce V} {l : Comm (Fin p) V} (h : st.Ok op z r)
    (hp : p ≤ 2 ^ 30) (hdo : (st.act op r).Does l st') :
    st'.stepsLeft p < st.stepsLeft p := by
  cases hpc : st.pc with
  | entry =>
    rw [(h.act_entry hp hpc).1] at hdo
    cases hdo
    simp [stepsLeft, hpc, enter]
  | loop =>
    by_cases hi : st.round < nrounds p
    · obtain ⟨m, st'', hact, -, hpc', hround, -⟩ := h.act_post hp hpc hi
      rw [hact] at hdo
      cases hdo
      simp [stepsLeft, hpc, hpc', hround]
    · have hle := (h.loop hpc).round_le
      rw [(h.act_done hp hpc (by omega)).1] at hdo
      cases hdo
      simp [stepsLeft, hpc]
  | recv =>
    obtain ⟨hi, hact, hnext⟩ := h.act_get hpc
    rw [hact] at hdo
    cases hdo with
    | get _ _ m =>
      simp only [stepsLeft, hpc, (hnext m).1]
      omega
  | flush =>
    obtain ⟨hi, st'', hact, -, hpc', hround⟩ := h.act_flush hp hpc
    rw [hact] at hdo
    cases hdo
    simp only [stepsLeft, hpc, hpc', hround]
    omega
  | returned =>
    rw [act, hpc] at hdo
    cases hdo

/-! ## A single call -/

/-- `op` on the vectors of `MPI_Reduce_local`. -/
def elementwise {β : Type} {count : ℕ} (op : β → β → β) (x y : Fin count → β) : Fin count → β :=
  fun j => op (x j) (y j)

def init (send : Fin p → Option V) (recv : Fin p → V) : Config (Fin p) V (Allreduce V) :=
  { loc := fun r => start (send r) (recv r), net := .empty }

/-- What an allreduce is for, in every state of every interleaving. -/
structure IsAllreduce {β : Type} (op : β → β → β) {count : ℕ}
    (send : Fin p → Option (Fin count → β)) (recv : Fin p → Fin count → β) : Prop where
  /-- No run is infinite. -/
  ends : ¬ ∃ f : ℕ → Config (Fin p) (Fin count → β) (Allreduce (Fin count → β)),
    f 0 = init send recv ∧ ∀ n, Step (act (elementwise op)) (f n) (f (n + 1))
  /-- No process runs into undefined behaviour. -/
  defined : ∀ c, Reach (act (elementwise op)) (init send recv) c →
    ∀ r, (c.loc r).act (elementwise op) r ≠ .fail
  /-- No state in which somebody has not returned is stuck. -/
  progress : ∀ c, Reach (act (elementwise op)) (init send recv) c →
    (∃ r, (c.loc r).pc ≠ .returned) → CanStep (act (elementwise op)) c
  /-- Whoever returns has the reduction of all inputs in its receive buffer. -/
  reduces : ∀ c, Reach (act (elementwise op)) (init send recv) c →
    ∀ r, (c.loc r).pc = .returned → ∀ j,
      reduction op (List.ofFn fun q => ((send q).getD (recv q)) j) = some ((c.loc r).recvbuf j)
  agrees : ∀ c, Reach (act (elementwise op)) (init send recv) c →
    ∀ r q, (c.loc r).pc = .returned → (c.loc q).pc = .returned →
      (c.loc r).recvbuf = (c.loc q).recvbuf

section Single

variable {op : V → V → V} {c c' : Config (Fin p) V (Allreduce V)} {x : Fin p → V}

/-- The invariant of a single call with the inputs `x`. -/
def SingleInv (op : V → V → V) (x : Fin p → V) (c : Config (Fin p) V (Allreduce V)) : Prop :=
  (collective op p).Inv (Collective.single x c.loc) c.net

theorem singleInv_init (op : V → V → V) (send : Fin p → Option V) (recv : Fin p → V) :
    SingleInv op (fun q => (send q).getD (recv q)) (init send recv) := by
  apply Collective.inv_single
  · exact fun r => contrib_val _ 0 r
  · exact fun _ => rfl
  · exact fun _ => rfl

theorem SingleInv.ok (h : SingleInv op x c) (r : Fin p) :
    (c.loc r).Ok op (contrib (fun q => [x q]) 0) r :=
  h.cur r _ rfl

theorem SingleInv.step [Std.Associative op] [Std.Commutative op] (hp : p ≤ 2 ^ 30)
    (h : SingleInv op x c) (hstep : Step (act op) c c') : SingleInv op x c' := by
  obtain ⟨r, l, st, net, hdo, hnet⟩ := hstep
  show (collective op p).Inv (Collective.single x (Function.update c.loc r st)) net
  rw [Collective.single_update]
  exact inv_move h hp rfl hdo hnet

theorem singleInv_of_reach [Std.Associative op] [Std.Commutative op] (hp : p ≤ 2 ^ 30)
    (send : Fin p → Option V) (recv : Fin p → V) (h : Reach (act op) (init send recv) c) :
    SingleInv op (fun q => (send q).getD (recv q)) c :=
  h.invariant (singleInv_init op send recv) fun _ _ hd hstep => hd.step hp hstep

theorem SingleInv.returned [Std.Associative op] [Std.Commutative op] (h : SingleInv op x c)
    {r : Fin p} (hpc : (c.loc r).pc = .returned) :
    reduction op (List.ofFn x) = some (c.loc r).recvbuf := by
  obtain ⟨u, hu, hred⟩ := reduction_of_fold ((h.ok r).returned hpc).2
  obtain rfl : x = u := funext fun q => Option.some.inj (hu q)
  exact hred

theorem SingleInv.canStep [Std.Associative op] [Std.Commutative op] (h : SingleInv op x c)
    (hp : p ≤ 2 ^ 30) (hopen : ∃ r, (c.loc r).pc ≠ .returned) : CanStep (act op) c := by
  obtain ⟨q, hq⟩ := hopen
  obtain ⟨r, st, hcur, hmove⟩ := inv_canMove h hp (q := q) (fun _ => Nat.zero_lt_one) rfl hq
  obtain rfl : c.loc r = st := Option.some.inj hcur
  exact ⟨r, hmove⟩

end Single

instance {β : Type} {count : ℕ} {op : β → β → β} [Std.Associative op] :
    Std.Associative (@elementwise β count op) where
  assoc _ _ _ := funext fun _ => ‹Std.Associative op›.assoc _ _ _

instance {β : Type} {count : ℕ} {op : β → β → β} [Std.Commutative op] :
    Std.Commutative (@elementwise β count op) where
  comm _ _ := funext fun _ => ‹Std.Commutative op›.comm _ _

/-- The reduction of vectors is the reduction of their elements. -/
theorem reduction_elementwise {β : Type} {op : β → β → β} {count : ℕ} {l : List (Fin count → β)}
    {y : Fin count → β} (h : reduction (elementwise op) l = some y) (j : Fin count) :
    reduction op (l.map fun x => x j) = some (y j) := by
  cases l with
  | nil => exact absurd h (by simp [reduction])
  | cons x xs =>
    obtain rfl := Option.some.inj h
    show some ((xs.map fun x => x j).foldl op (x j)) = _
    rw [List.foldl_map]
    congr 1
    exact List.foldl_hom (fun x : Fin count → β => x j) fun _ _ => rfl

/-- Up to `2 ^ 30` processes, any associative and commutative operation. -/
theorem isAllreduce {β : Type} (op : β → β → β) [Std.Associative op] [Std.Commutative op]
    (hp : p ≤ 2 ^ 30) {count : ℕ} (send : Fin p → Option (Fin count → β))
    (recv : Fin p → Fin count → β) : IsAllreduce op send recv where
  ends := not_infinite (stepsLeft p) (fun _ _ hd hstep => hd.step hp hstep)
    (fun hd hdo => (hd.ok _).stepsLeft_lt hp hdo) (singleInv_init _ send recv)
  defined _ hc r := ((singleInv_of_reach hp send recv hc).ok r).act_ne_fail hp
  progress _ hc := (singleInv_of_reach hp send recv hc).canStep hp
  reduces _ hc r hpc j := by
    have hred := reduction_elementwise ((singleInv_of_reach hp send recv hc).returned hpc) j
    rwa [List.map_ofFn] at hred
  agrees _ hc r q hr hq := by
    have hinv := singleInv_of_reach hp send recv hc
    exact Option.some.inj ((hinv.returned hr).symm.trans (hinv.returned hq))

/-- Three processes add two numbers each, the second one in place. -/
theorem isAllreduce_three :
    IsAllreduce (p := 3) (fun a b : ℤ => a + b)
      ![some ![1, 10], none, some ![3, 30]] ![![0, 0], ![2, 20], ![0, 0]] :=
  isAllreduce (fun a b : ℤ => a + b) (by decide) _ _

end ReproMPI.Sync.Allreduce
