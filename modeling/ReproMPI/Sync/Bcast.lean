import Mathlib.Data.Nat.Log
import Mathlib.Tactic
import ReproMPI.Lib.Collective
import ReproMPI.Sync.CyclicRanks

/-!
# The binomial broadcast

`Bcast` holds the variables of `RemproMPI_Bcast_binomial`. A process first doubles `d` until
it exceeds its rank, then receives from the rank `dd` below it unless it is the root, and then
sends to the ranks `d` above it, doubling `d` again.

The tree this walks over is rooted at rank 0, and for that root the second half of this file
shows that successive broadcasts deliver what the root put in. In round `i` the ranks below
`2 ^ i` send to the ranks `2 ^ i` above them.
-/

namespace ReproMPI.Sync

open CInt Fifo

namespace Bcast

/-- Where a process is: at one of the two loop tests, in the receive or in the completion of
a send. -/
inductive Pc
  | search
  | recv
  | send
  | flush
  | returned
  deriving DecidableEq, Repr

end Bcast

/-- The variables of `RemproMPI_Bcast_binomial`; `round` counts how often `d` was doubled. -/
structure Bcast (V : Type) where
  pc : Bcast.Pc
  buffer : V
  d : ℤ
  dd : ℤ
  round : ℕ

namespace Bcast

variable {V : Type} {p : ℕ}

def start (buffer : V) : Bcast V := { pc := .search, buffer := buffer, d := 1, dd := 0, round := 0 }

/-- `d <<= 1`. -/
def double (st : Bcast V) : Option (Bcast V) := do
  let d ← check (st.d * 2)
  some { st with d := d, round := st.round + 1 }

/-- The next step of `RemproMPI_Bcast_binomial` on rank `r` of `p`. -/
def act (root r : Fin p) (st : Bcast V) : Action (Fin p) V (Bcast V) :=
  match st.pc with
  | .search =>
    if st.d ≤ (r : ℤ) then
      match double { st with dd := st.d } with
      | some st' => .tau st'
      | none => .fail
    else .tau { st with pc := if r = root then .send else .recv }
  | .recv =>
    match toRank p (r - st.dd) with
    | some src => .get src fun m => { st with pc := .send, buffer := m }
    | none => .fail
  | .send =>
    match check (r + st.d) with
    | none => .fail
    | some x =>
      if x < p then
        match toRank p x with
        | some dst => .post dst st.buffer { st with pc := .flush }
        | none => .fail
      else .tau { st with pc := .returned }
  | .flush =>
    match (check (r + st.d)).bind (toRank p), st.double with
    | some dst, some st' => .flush dst { st' with pc := .send }
    | _, _ => .fail
  | .returned => .halt

/-! ## The tree -/

def nrounds (p : ℕ) : ℕ := Nat.clog 2 p

theorem lt_nrounds_iff {p i : ℕ} : i < nrounds p ↔ 2 ^ i < p := Nat.lt_clog_iff_pow_lt (by decide)

/-- In round `i` rank `s` sends to the rank `2 ^ i` above it. -/
def dst (p i : ℕ) (s : Fin p) : Option (Fin p) :=
  if h : (s : ℕ) < 2 ^ i ∧ s + 2 ^ i < p then some ⟨s + 2 ^ i, h.2⟩ else none

variable {i j : ℕ} {r s s' d : Fin p}

theorem dst_eq_some_iff : dst p i s = some d ↔ (s : ℕ) < 2 ^ i ∧ (d : ℕ) = s + 2 ^ i := by
  rw [dst]
  constructor
  · intro h
    split at h
    · next hs =>
      obtain rfl := Option.some.inj h
      exact ⟨hs.1, rfl⟩
    · exact absurd h (by simp)
  · rintro ⟨hs, hd⟩
    have := d.isLt
    rw [dif_pos ⟨hs, by omega⟩]
    congr 1
    exact Fin.ext hd.symm

theorem dst_inj (hs : dst p i s = some d) (hs' : dst p i s' = some d) : s = s' := by
  rw [dst_eq_some_iff] at hs hs'
  apply Fin.ext
  omega

/-- A rank sends in the rounds after the one it is reached in. -/
theorem dst_eq_none_of_le (h : 2 ^ i ≤ (r : ℕ)) : dst p i r = none := by
  rw [dst]
  rw [dif_neg]
  omega

theorem dst_eq_none_of_size_le (h : p ≤ r + 2 ^ i) : dst p i r = none := by
  rw [dst]
  rw [dif_neg]
  omega

/-- Nobody sends to a rank before its round. -/
theorem dst_ne_of_lt (hij : i < j) (hr : 2 ^ j ≤ (r : ℕ)) (s : Fin p) : dst p i s ≠ some r := by
  intro hd
  obtain ⟨hs, hr'⟩ := dst_eq_some_iff.mp hd
  have hpow : 2 ^ (i + 1) ≤ 2 ^ j := Nat.pow_le_pow_right (by decide) hij
  rw [Nat.pow_succ] at hpow
  omega

/-- Nobody sends to a rank after its round. -/
theorem dst_ne_of_le (hij : j ≤ i) (hr : (r : ℕ) < 2 ^ j) (s : Fin p) : dst p i s ≠ some r := by
  intro hd
  obtain ⟨hs, hr'⟩ := dst_eq_some_iff.mp hd
  have hpow : 2 ^ j ≤ 2 ^ i := Nat.pow_le_pow_right (by decide) hij
  omega

/-! ## The invariant of a call -/

/-- `d` and `dd` while the process looks for its round. -/
structure Searching (r : Fin p) (st : Bcast V) : Prop where
  d : st.d = (2 ^ st.round : ℕ)
  dd : 0 < st.round → st.dd = (2 ^ (st.round - 1) : ℕ) ∧ 2 ^ (st.round - 1) ≤ (r : ℕ)

/-- The process has the root's value `z` and sends it from round `round` on. -/
structure Sending (z : Option V) (r : Fin p) (st : Bcast V) : Prop where
  d : st.d = (2 ^ st.round : ℕ)
  lt : (r : ℕ) < 2 ^ st.round
  round_le : st.round ≤ nrounds p
  buffer : z = some st.buffer

/-- The invariant of a call with root 0. -/
def Ok (z : Option V) (r : Fin p) (st : Bcast V) : Prop :=
  match st.pc with
  | .search => st.Searching r ∧ ((r : ℕ) = 0 → z = some st.buffer)
  | .recv => st.Searching r ∧ 0 < st.round ∧ (r : ℕ) < 2 ^ st.round
  | .send => st.Sending z r
  | .flush => st.Sending z r ∧ r + 2 ^ st.round < p
  | .returned => z = some st.buffer

variable {z w : Option V} {root : Fin p} {st st' : Bcast V} {buffer : V}

theorem Ok.mono (h : st.Ok z r) (hzw : ∀ u, z = some u → w = some u) : st.Ok w r := by
  rw [Ok] at h ⊢
  cases hpc : st.pc with
  | search =>
    rw [hpc] at h
    exact ⟨h.1, fun h0 => hzw _ (h.2 h0)⟩
  | recv =>
    rw [hpc] at h
    exact h
  | send =>
    rw [hpc] at h
    exact { h with buffer := hzw _ (Sending.buffer h) }
  | flush =>
    rw [hpc] at h
    exact ⟨{ h.1 with buffer := hzw _ h.1.buffer }, h.2⟩
  | returned =>
    rw [hpc] at h
    exact hzw _ h

theorem start_ok (h : (r : ℕ) = 0 → z = some buffer) : (start buffer).Ok z r :=
  ⟨⟨rfl, fun h0 => absurd h0 (Nat.lt_irrefl 0)⟩, h⟩

theorem pow_le_of_le_nrounds (hp : p ≤ 2 ^ 30) (hi : i ≤ nrounds p) : 2 ^ i ≤ 2 ^ 30 :=
  Nat.pow_le_pow_right (by decide) (hi.trans (Nat.clog_le_of_le_pow hp))

theorem double_eq (hd : st.d = (2 ^ st.round : ℕ)) (hle : 2 ^ st.round ≤ 2 ^ 29) :
    st.double = some { st with d := (2 ^ (st.round + 1) : ℕ), round := st.round + 1 } := by
  have hcheck : check (st.d * 2) = some ((2 ^ (st.round + 1) : ℕ) : ℤ) := by
    have hpos : 0 < 2 ^ st.round := Nat.two_pow_pos _
    rw [Nat.pow_succ]
    exact check_eq_some_iff.mpr ⟨by omega, by omega, by omega⟩
  exact Option.bind_eq_some_iff.mpr ⟨_, hcheck, rfl⟩

theorem Sending.check_target (h : st.Sending z r) (hp : p ≤ 2 ^ 30) :
    check ((r : ℤ) + st.d) = some ((r + 2 ^ st.round : ℕ) : ℤ) := by
  have hpow := pow_le_of_le_nrounds hp h.round_le
  have hr := r.isLt
  have hd := h.d
  have hpos : 0 < 2 ^ st.round := Nat.two_pow_pos _
  exact check_eq_some_iff.mpr ⟨by omega, by omega, by omega⟩

/-! ## One step -/

theorem Ok.searching (h : st.Ok z r) (hpc : st.pc = .search) :
    st.Searching r ∧ ((r : ℕ) = 0 → z = some st.buffer) := by
  rw [Ok] at h
  rwa [hpc] at h

theorem Ok.sending (h : st.Ok z r) (hpc : st.pc = .send) : st.Sending z r := by
  rw [Ok] at h
  rwa [hpc] at h

theorem Ok.act_search (h : st.Ok z r) (root : Fin p) (hp : p ≤ 2 ^ 30) (hpc : st.pc = .search)
    (hle : st.d ≤ (r : ℤ)) :
    ∃ st', st.act root r = .tau st' ∧ st'.Ok z r ∧ st'.pc = .search := by
  obtain ⟨hsearch, hbuffer⟩ := h.searching hpc
  have hr := r.isLt
  have hd := hsearch.d
  have hround : st.round < 30 := (Nat.pow_lt_pow_iff_right (by decide : 1 < 2)).mp (by omega)
  have hlt : 2 ^ st.round ≤ 2 ^ 29 := Nat.pow_le_pow_right (by decide) (by omega)
  let st' : Bcast V := { st with dd := st.d, d := (2 ^ (st.round + 1) : ℕ), round := st.round + 1 }
  have hdouble : double { st with dd := st.d } = some st' := double_eq hsearch.d hlt
  refine ⟨st', ?_, ?_, hpc⟩
  · rw [act]
    rw [hpc] at hdouble ⊢
    simp only [hle, if_true, hdouble]
  · have hsearch' : st'.Searching r := ⟨rfl, fun _ => ⟨hd, by show 2 ^ st.round ≤ _; omega⟩⟩
    rw [Ok]
    rw [show st'.pc = .search from hpc]
    exact ⟨hsearch', hbuffer⟩

theorem Ok.act_found (h : st.Ok z r) (hpc : st.pc = .search) (hgt : ¬ st.d ≤ (r : ℤ))
    (hroot : (root : ℕ) = 0) :
    ∃ st', st.act root r = .tau st' ∧ st'.Ok z r ∧ st'.round = st.round ∧
      ((r : ℕ) = 0 ∧ st.round = 0 ∧ st'.pc = .send ∨
        0 < st.round ∧ 2 ^ (st.round - 1) ≤ (r : ℕ) ∧ st'.pc = .recv) := by
  obtain ⟨hsearch, hbuffer⟩ := h.searching hpc
  have hd := hsearch.d
  have hlt : (r : ℕ) < 2 ^ st.round := by omega
  refine ⟨{ st with pc := if r = root then .send else .recv }, ?_, ?_⟩
  · rw [act]
    rw [hpc]
    simp only [hgt, if_false]
  · by_cases hr : r = root
    · have h0 : (r : ℕ) = 0 := hr ▸ hroot
      have hround : st.round = 0 := by
        by_contra hne
        have hle := (hsearch.dd (Nat.pos_of_ne_zero hne)).2
        have := Nat.two_pow_pos (st.round - 1)
        omega
      rw [if_pos hr]
      exact ⟨⟨hd, hlt, by simp [hround], hbuffer h0⟩, rfl, Or.inl ⟨h0, hround, rfl⟩⟩
    · have hpos : 0 < st.round := by
        by_contra hzero
        rw [Nat.eq_zero_of_not_pos hzero] at hlt
        exact hr (Fin.ext (by omega))
      rw [if_neg hr]
      exact ⟨⟨{ hsearch with }, hpos, hlt⟩, rfl, Or.inr ⟨hpos, (hsearch.dd hpos).2, rfl⟩⟩

theorem Ok.act_recv (h : st.Ok z r) (root : Fin p) (hpc : st.pc = .recv) :
    0 < st.round ∧ st.round ≤ nrounds p ∧ ∃ s : Fin p, dst p (st.round - 1) s = some r ∧
      st.act root r = .get s (fun m => { st with pc := .send, buffer := m }) ∧
      ∀ m, z = some m → Ok z r { st with pc := .send, buffer := m } := by
  rw [Ok] at h
  rw [hpc] at h
  obtain ⟨hsearch, hpos, hlt⟩ := h
  obtain ⟨hdd, hle⟩ := hsearch.dd hpos
  have hr := r.isLt
  have hsucc : st.round - 1 + 1 = st.round := Nat.sub_add_cancel hpos
  have hround : st.round ≤ nrounds p := by
    have : st.round - 1 < nrounds p := lt_nrounds_iff.mpr (by omega)
    omega
  rw [← hsucc, Nat.pow_succ] at hlt
  refine ⟨hpos, hround, ⟨r - 2 ^ (st.round - 1), by omega⟩, ?_, ?_, ?_⟩
  · rw [dst_eq_some_iff]
    constructor
    · show (r : ℕ) - 2 ^ (st.round - 1) < _
      omega
    · show (r : ℕ) = r - 2 ^ (st.round - 1) + _
      omega
  · have hsrc : (r : ℤ) - st.dd = ((r - 2 ^ (st.round - 1) : ℕ) : ℤ) := by omega
    rw [act]
    rw [hpc]
    simp only [hsrc, toRank_natCast (p := p) (n := r - 2 ^ (st.round - 1)) (by omega)]
  · intro m hm
    exact ⟨hsearch.d, by rw [← hsucc, Nat.pow_succ]; exact hlt, hround, hm⟩

theorem Ok.act_send (h : st.Ok z r) (root : Fin p) (hp : p ≤ 2 ^ 30) (hpc : st.pc = .send)
    (hlt : r + 2 ^ st.round < p) :
    st.round < nrounds p ∧ z = some st.buffer ∧ ∃ d : Fin p, dst p st.round r = some d ∧
      st.act root r = .post d st.buffer { st with pc := .flush } ∧
      Ok z r { st with pc := .flush } := by
  have hsend := h.sending hpc
  refine ⟨lt_nrounds_iff.mpr (by omega), hsend.buffer,
    ⟨r + 2 ^ st.round, hlt⟩, dst_eq_some_iff.mpr ⟨hsend.lt, rfl⟩, ?_, { hsend with }, hlt⟩
  rw [act]
  rw [hpc]
  have hlt' : ((r + 2 ^ st.round : ℕ) : ℤ) < p := by exact_mod_cast hlt
  simp only [hsend.check_target hp, hlt', if_true, toRank_natCast hlt]

theorem Ok.act_done (h : st.Ok z r) (root : Fin p) (hp : p ≤ 2 ^ 30) (hpc : st.pc = .send)
    (hge : ¬ r + 2 ^ st.round < p) :
    (r : ℕ) < 2 ^ st.round ∧ st.round ≤ nrounds p ∧
      st.act root r = .tau { st with pc := .returned } ∧ Ok z r { st with pc := .returned } := by
  have hsend := h.sending hpc
  refine ⟨hsend.lt, hsend.round_le, ?_, hsend.buffer⟩
  rw [act]
  rw [hpc]
  have hge' : ¬ ((r + 2 ^ st.round : ℕ) : ℤ) < p := by exact_mod_cast hge
  simp only [hsend.check_target hp, hge', if_false]

theorem Ok.act_flush (h : st.Ok z r) (root : Fin p) (hp : p ≤ 2 ^ 30) (hpc : st.pc = .flush) :
    st.round < nrounds p ∧ (r : ℕ) < 2 ^ st.round ∧ ∃ d st', dst p st.round r = some d ∧
      st.act root r = .flush d st' ∧ st'.Ok z r ∧ st'.pc = .send ∧ st'.round = st.round + 1 := by
  rw [Ok] at h
  rw [hpc] at h
  obtain ⟨hsend, hlt⟩ := h
  have hround : st.round < nrounds p := lt_nrounds_iff.mpr (by omega)
  have hpow : 2 ^ st.round ≤ 2 ^ 29 := by
    have := pow_le_of_le_nrounds (i := st.round + 1) hp hround
    rw [Nat.pow_succ] at this
    omega
  have hlt' : (r : ℕ) < 2 ^ (st.round + 1) := by
    have := hsend.lt
    rw [Nat.pow_succ]
    omega
  refine ⟨hround, hsend.lt, ⟨r + 2 ^ st.round, hlt⟩,
    { st with d := (2 ^ (st.round + 1) : ℕ), round := st.round + 1, pc := .send },
    dst_eq_some_iff.mpr ⟨hsend.lt, rfl⟩, ?_, ⟨rfl, hlt', hround, hsend.buffer⟩, rfl, rfl⟩
  rw [act]
  rw [hpc]
  simp only [hsend.check_target hp, Option.bind_some, toRank_natCast hlt,
    double_eq hsend.d hpow]

theorem Ok.returned (h : st.Ok z r) (hpc : st.pc = .returned) : z = some st.buffer := by
  rw [Ok] at h
  rwa [hpc] at h

theorem Ok.act_ne_fail (h : st.Ok z r) (hp : p ≤ 2 ^ 30) (hroot : (root : ℕ) = 0) :
    st.act root r ≠ .fail := by
  cases hpc : st.pc with
  | search =>
    by_cases hle : st.d ≤ (r : ℤ)
    · obtain ⟨st', hact, _⟩ := h.act_search root hp hpc hle
      rw [hact]
      exact nofun
    · obtain ⟨st', hact, _⟩ := h.act_found hpc hle hroot
      rw [hact]
      exact nofun
  | recv =>
    obtain ⟨_, _, s, _, hact, _⟩ := h.act_recv root hpc
    rw [hact]
    exact nofun
  | send =>
    by_cases hlt : r + 2 ^ st.round < p
    · obtain ⟨_, _, d, _, hact, _⟩ := h.act_send root hp hpc hlt
      rw [hact]
      exact nofun
    · rw [(h.act_done root hp hpc hlt).2.2.1]
      exact nofun
  | flush =>
    obtain ⟨_, _, d, st', _, hact, _⟩ := h.act_flush root hp hpc
    rw [hact]
    exact nofun
  | returned =>
    rw [act]
    rw [hpc]
    exact nofun

/-! ## Successive calls -/

/-- The rounds a process has posted in or has no message to post in. -/
def posted (p : ℕ) (st : Bcast V) : ℕ :=
  match st.pc with
  | .search => 0
  | .recv | .send => st.round
  | .flush => st.round + 1
  | .returned => nrounds p

/-- The rounds a process has got its message in or gets none in. -/
def got (p : ℕ) (st : Bcast V) : ℕ :=
  match st.pc with
  | .search => 0
  | .recv => st.round - 1
  | .send | .flush => st.round
  | .returned => nrounds p

/-- What rank 0 put into call `k`. -/
def rootInput (x : Fin p → List V) (k : ℕ) : Option V :=
  if h : 0 < p then (x ⟨0, h⟩)[k]? else none

theorem rootInput_of_val (x : Fin p → List V) (k : ℕ) (h : (r : ℕ) = 0) :
    rootInput x k = (x r)[k]? := by
  rw [rootInput]
  rw [dif_pos r.pos]
  congr 2
  exact Fin.ext h.symm

theorem rootInput_mono {x x' : Fin p → List V} {k : ℕ} {u : V} (hx : Extends x x')
    (h : rootInput x k = some u) : rootInput x' k = some u := by
  rw [rootInput] at h ⊢
  split at h
  · next hp =>
    rw [dif_pos hp]
    exact hx _ _ _ h
  · exact absurd h (by simp)

def collective (V : Type) (p : ℕ) : Collective (Fin p) V V (Bcast V) where
  rounds := nrounds p
  dst := dst p
  dst_inj := dst_inj
  posted := posted p
  got := got p
  Msg x k _ _ m := rootInput x k = some m
  Ok x k r st := st.Ok (rootInput x k) r
  Result x k _ y := rootInput x k = some y
  msg_mono := rootInput_mono
  ok_mono hx h := h.mono fun _ => rootInput_mono hx
  result_mono := rootInput_mono

section Steps

variable {v : Fin p → Calls V (Bcast V)} {net net' : Net (Fin p) V} {l : Comm (Fin p) V}

theorem inv_call (h : (collective V p).Inv v net) (hidle : (v r).cur = none) (buffer : V) :
    (collective V p).Inv (Function.update v r ((v r).call buffer (start buffer))) net := by
  apply h.call hidle
  · intro x k hk
    apply start_ok
    intro h0
    exact (rootInput_of_val x k h0).trans hk
  · rfl
  · rfl

/-- A step of a call with root 0. -/
theorem inv_move (h : (collective V p).Inv v net) (hp : p ≤ 2 ^ 30) (hroot : (root : ℕ) = 0)
    (hcur : (v r).cur = some st) (hdo : (st.act root r).Does l st') (hnet : net.Step r l net') :
    (collective V p).Inv (Function.update v r ((v r).move st')) net' := by
  have hok : st.Ok (rootInput (Collective.inputs v) (v r).results.length) r := h.cur r st hcur
  cases hpc : st.pc with
  | search =>
    have hposted : (collective V p).posted st = 0 := by simp [collective, posted, hpc]
    have hgot : (collective V p).got st = 0 := by simp [collective, got, hpc]
    -- the search sends nothing; the rounds are left behind when it ends
    by_cases hle : st.d ≤ (r : ℤ)
    · obtain ⟨st'', hact, hok', hpc'⟩ := hok.act_search root hp hpc hle
      rw [hact] at hdo
      cases hdo
      cases hnet
      apply h.stay hcur hok'
      · simp [collective, posted, hpc, hpc']
      · simp [collective, got, hpc, hpc']
    · obtain ⟨st'', hact, hok', hround, hnext⟩ := hok.act_found hpc hle hroot
      rw [hact] at hdo
      cases hdo
      cases hnet
      rcases hnext with ⟨_, h0, hpc'⟩ | ⟨hpos, hreach, hpc'⟩
      · apply h.stay hcur hok'
        · simp [collective, posted, hpc, hpc', hround, h0]
        · simp [collective, got, hpc, hpc', hround, h0]
      · -- the rounds before the one `r` is reached in are not its own
        have hposted' : (collective V p).posted st' = st.round := by
          simp [collective, posted, hpc', hround]
        have hgot' : (collective V p).got st' = st.round - 1 := by
          simp [collective, got, hpc', hround]
        obtain ⟨_, hle', _⟩ := hok'.act_recv root hpc'
        rw [hround] at hle'
        apply h.skip hcur hok'
        · omega
        · omega
        · rw [hposted']
          exact hle'
        · rw [hgot']
          exact (Nat.sub_le _ _).trans hle'
        · intro i _ hi
          apply dst_eq_none_of_le
          exact (Nat.pow_le_pow_right (by decide) (by omega)).trans hreach
        · intro i s _ hi
          exact dst_ne_of_lt (hgot' ▸ hi) hreach s
  | recv =>
    obtain ⟨hpos, hle, s, hdst, hact, hok'⟩ := hok.act_recv root hpc
    have hgot : (collective V p).got st = st.round - 1 := by simp [collective, got, hpc]
    rw [hact] at hdo
    cases hdo with
    | get _ _ m =>
    cases hnet with
    | get _ _ hm =>
    apply h.get hcur _ _ hm
    · exact hok' m
    · simp [collective, posted, hpc]
    · simp only [collective, got, hpc]
      omega
    · rw [hgot]
      show st.round - 1 < nrounds p
      omega
    · rw [hgot]
      exact hdst
  | send =>
    have hposted : (collective V p).posted st = st.round := by simp [collective, posted, hpc]
    have hgot : (collective V p).got st = st.round := by simp [collective, got, hpc]
    by_cases hlt : r + 2 ^ st.round < p
    · obtain ⟨hround, hbuffer, d, hdst, hact, hok'⟩ := hok.act_send root hp hpc hlt
      rw [hact] at hdo
      cases hdo
      cases hnet
      apply h.post hcur
      · exact hok'
      · rw [hposted]
        exact hround
      · rw [hposted]
        exact hdst
      · exact hbuffer
      · simp [collective, posted, hpc]
      · simp [collective, got, hpc]
    · -- no round is left in which `r` sends or is sent to
      obtain ⟨hreach, hround, hact, hok'⟩ := hok.act_done root hp hpc hlt
      rw [hact] at hdo
      cases hdo
      cases hnet
      apply h.skip hcur
      · exact hok'
      · rw [hposted]
        exact hround
      · rw [hgot]
        exact hround
      · exact le_rfl
      · exact le_rfl
      · intro i hi _
        apply dst_eq_none_of_size_le
        have : 2 ^ st.round ≤ 2 ^ i := Nat.pow_le_pow_right (by decide) (hposted ▸ hi)
        omega
      · intro i s hi _
        exact dst_ne_of_le (hgot ▸ hi) hreach s
  | flush =>
    -- with the flush the round is over for both counters
    obtain ⟨hround, hreach, d, st'', hdst, hact, hok', hpc', hround'⟩ :=
      hok.act_flush root hp hpc
    have hposted : (collective V p).posted st = st.round + 1 := by simp [collective, posted, hpc]
    have hgot : (collective V p).got st = st.round := by simp [collective, got, hpc]
    rw [hact] at hdo
    cases hdo
    cases hnet
    have hposted' : (collective V p).posted st' = st.round + 1 := by
      simp [collective, posted, hpc', hround']
    have hgot' : (collective V p).got st' = st.round + 1 := by
      simp [collective, got, hpc', hround']
    apply h.skip hcur hok'
    · omega
    · omega
    · rw [hposted']
      exact hround
    · rw [hgot']
      exact hround
    · intro i hi hi'
      omega
    · intro i s hi _
      exact dst_ne_of_le (hgot ▸ hi) hreach s
  | returned =>
    rw [act] at hdo
    rw [hpc] at hdo
    cases hdo

theorem inv_finish (h : (collective V p).Inv v net) (hcur : (v r).cur = some st)
    (hpc : st.pc = .returned) :
    (collective V p).Inv (Function.update v r ((v r).finish st.buffer)) net := by
  have hok : st.Ok (rootInput (Collective.inputs v) (v r).results.length) r := h.cur r st hcur
  apply h.finish hcur
  · simp [collective, posted, hpc]
  · simp [collective, got, hpc]
  · exact hok.returned hpc

end Steps

/-! ## Progress -/

theorem got_le_posted (st : Bcast V) : st.got p ≤ st.posted p := by
  rw [got, posted]
  cases st.pc <;> simp

theorem posted_le_got_succ (st : Bcast V) : st.posted p ≤ st.got p + 1 := by
  rw [got, posted]
  cases st.pc <;> simp
  omega

theorem Ok.positions (h : st.Ok z r) (hp : p ≤ 2 ^ 30) :
    st.posted p ≤ nrounds p ∧ st.got p ≤ nrounds p ∧
      (st.pc = .returned → st.posted p = nrounds p ∧ st.got p = nrounds p) := by
  rw [posted, got]
  cases hpc : st.pc with
  | search => simp
  | recv =>
    obtain ⟨_, hle, _⟩ := h.act_recv r hpc
    simp only [reduceCtorEq, false_implies, and_true]
    omega
  | send =>
    simp [(h.sending hpc).round_le]
  | flush =>
    have hlt := (h.act_flush r hp hpc).1
    simp only [reduceCtorEq, false_implies, and_true]
    omega
  | returned => simp

section Blocked

variable {v : Fin p → Calls V (Bcast V)} {net : Net (Fin p) V} {q : Fin p}

/-- The receiver a process waits for has taken the message or can take it. -/
theorem canMove_of_flush (h : (collective V p).Inv v net) (hp : p ≤ 2 ^ 30)
    (hstarted : ∀ s, (v r).results.length < (v s).contribs.length)
    (hcur : (v r).cur = some st) (hpc : st.pc = .flush)
    (hmin : ∀ s, (collective V p).far (v r) ≤ (collective V p).far (v s)) :
    ∃ s st, (v s).cur = some st ∧ CanMove net s (st.act root s) := by
  have hok (s : Fin p) (st : Bcast V) (hcur : (v s).cur = some st) :
    st.Ok (rootInput (Collective.inputs v) (v s).results.length) s := h.cur s st hcur
  obtain ⟨hi, _, d, st', hdst, hact, _⟩ := (hok r st hcur).act_flush root hp hpc
  have hposted : (collective V p).posted st = st.round + 1 := by simp [collective, posted, hpc]
  have hgot : (collective V p).got st = st.round := by simp [collective, got, hpc]
  have hposted_r : (v r).pos (nrounds p) (posted p) =
      (v r).results.length * nrounds p + (st.round + 1) := by
    rw [← hposted]
    exact Calls.pos_of_cur hcur
  have hgot_r : (v r).pos (nrounds p) (got p) = (v r).results.length * nrounds p + st.round := by
    rw [← hgot]
    exact Calls.pos_of_cur hcur
  -- either the receiver is past this round, or the message lies in its channel
  by_cases htaken :
      (v r).results.length * nrounds p + st.round < (v d).pos (nrounds p) (got p)
  · refine ⟨r, st, hcur, ?_⟩
    rw [hact]
    apply canMove_flush
    apply h.tracked.flushed
    intro g hg _
    have hg' : g < (v r).pos (nrounds p) (posted p) := hg
    show g < (v d).pos (nrounds p) (got p)
    omega
  · -- this round is the one `d` waits for
    obtain ⟨u, hcurd, hsame, hu_posted, hu_got⟩ := h.same_position hcur (hstarted d)
      (by rw [hposted, hgot]) (by rw [hgot]; exact hi) posted_le_got_succ (hmin d)
      (by rw [← hgot_r] at htaken; exact Nat.le_of_not_lt htaken)
    rw [hposted] at hu_posted
    rw [hgot] at hu_got
    have hrecv : u.pc = .recv := by
      simp only [collective] at hu_posted hu_got
      cases hpcu : u.pc with
      | recv => rfl
      | flush =>
        have hround : u.round = st.round := by simpa [got, hpcu] using hu_got
        obtain ⟨_, hlt, _⟩ := (hok d u hcurd).act_flush root hp hpcu
        have := (dst_eq_some_iff.mp hdst).2
        rw [hround] at hlt
        omega
      | _ => simp [got, posted, hpcu] at hu_posted hu_got <;> omega
    obtain ⟨_, _, s, hs, hact', _⟩ := (hok d u hcurd).act_recv root hrecv
    have hround : u.round - 1 = st.round := by simpa [collective, got, hrecv] using hu_got
    rw [hround] at hs
    obtain rfl := dst_inj hs hdst
    refine ⟨d, u, hcurd, ?_⟩
    rw [hact']
    apply canMove_get
    have hposd : (v d).pos (nrounds p) (got p) = (v s).results.length * nrounds p + st.round := by
      rw [← hsame, ← hu_got]
      exact Calls.pos_of_cur hcurd
    apply h.tracked.exists_message
    · show (collective V p).schedule.dst ((v d).pos (nrounds p) (got p)) s = some d
      rw [hposd]
      exact ((collective V p).schedule_dst hi _ s).trans hdst
    · show (v d).pos (nrounds p) (got p) < (v s).pos (nrounds p) (posted p)
      omega

/-- When everybody has started a call and somebody is in it, somebody can go on with it. -/
theorem inv_canMove (h : (collective V p).Inv v net) (hp : p ≤ 2 ^ 30) (hroot : (root : ℕ) = 0)
    (hstarted : ∀ r, (v q).results.length < (v r).contribs.length)
    (hcur : (v q).cur = some st) (hst : st.pc ≠ .returned) :
    ∃ r st, (v r).cur = some st ∧ CanMove net r (st.act root r) := by
  have hok (r : Fin p) (st : Bcast V) (hcur : (v r).cur = some st) :
    st.Ok (rootInput (Collective.inputs v) (v r).results.length) r := h.cur r st hcur
  obtain ⟨r, st, hk, hcur, hst, hmin⟩ := h.exists_furthest_behind hstarted
    (fun st => st.pc ≠ .returned)
    (fun r st hcur =>
      ⟨((hok r st hcur).positions hp).1, ((hok r st hcur).positions hp).2.1⟩)
    (fun r st hcur hst => ((hok r st hcur).positions hp).2.2 (not_not.mp hst)) rfl hcur hst
  cases hpc : st.pc with
  | search =>
    refine ⟨r, st, hcur, ?_⟩
    by_cases hle : st.d ≤ (r : ℤ)
    · obtain ⟨st', hact, _⟩ := (hok r st hcur).act_search root hp hpc hle
      rw [hact]
      exact canMove_tau _ _ _
    · obtain ⟨st', hact, _⟩ := (hok r st hcur).act_found hpc hle hroot
      rw [hact]
      exact canMove_tau _ _ _
  | recv =>
    obtain ⟨hpos, hle, s, hdst, hact, _⟩ := (hok r st hcur).act_recv root hpc
    have hgot : (collective V p).got st = st.round - 1 := by simp [collective, got, hpc]
    have hposted : (collective V p).posted st = st.round := by simp [collective, posted, hpc]
    refine ⟨r, st, hcur, ?_⟩
    rw [hact]
    apply canMove_get
    apply h.receivable hcur
    · rw [hgot]
      show st.round - 1 < nrounds p
      omega
    · rw [hgot]
      exact hdst
    · omega
    · exact got_le_posted
    · exact hmin s
  | send =>
    refine ⟨r, st, hcur, ?_⟩
    by_cases hlt : r + 2 ^ st.round < p
    · obtain ⟨_, _, d, _, hact, _⟩ := (hok r st hcur).act_send root hp hpc hlt
      rw [hact]
      exact canMove_post _ _ _ _ _
    · rw [((hok r st hcur).act_done root hp hpc hlt).2.2.1]
      exact canMove_tau _ _ _
  | flush => exact canMove_of_flush h hp (fun s => hk ▸ hstarted s) hcur hpc hmin
  | returned => exact absurd hpc hst

end Blocked

end Bcast

end ReproMPI.Sync
