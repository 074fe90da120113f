import Mathlib.Logic.Relation
import Mathlib.Tactic

/-!
# Message passing over FIFO channels

Finitely or infinitely many processes exchange messages; the messages from one process to
another arrive in the order in which they were posted. A channel is kept as everything
posted so far and the number of messages the receiver has taken.

A send is split into `post`, which hands the message to the network, and `flush`, the
completion of the send. Any schedule of a system with or without buffering is a run of
`Step`, which lets a flush complete at any time; `CanStep` only counts the steps a system
without buffering can make, where a flush waits until its channel is empty.
-/

namespace Fifo

variable {ι μ σ : Type*}

/-- What one step of a process does to the network. -/
inductive Comm (ι μ : Type*)
  | tau
  | post (dst : ι) (m : μ)
  | get (src : ι) (m : μ)
  | flush (dst : ι)

/-- `sent s d` are the messages posted from `s` to `d`, of which `d` has taken the first
`rcvd s d`. -/
@[ext]
structure Net (ι μ : Type*) where
  sent : ι → ι → List μ
  rcvd : ι → ι → ℕ

namespace Net

def empty : Net ι μ where
  sent _ _ := []
  rcvd _ _ := 0

variable [DecidableEq ι]

def post (net : Net ι μ) (s d : ι) (m : μ) : Net ι μ :=
  { net with
    sent := fun s' d' => if s' = s ∧ d' = d then net.sent s d ++ [m] else net.sent s' d' }

def take (net : Net ι μ) (s d : ι) : Net ι μ :=
  { net with
    rcvd := fun s' d' => if s' = s ∧ d' = d then net.rcvd s d + 1 else net.rcvd s' d' }

/-- The effect of a communication of process `r`. -/
inductive Step (r : ι) : Net ι μ → Comm ι μ → Net ι μ → Prop
  | tau (net : Net ι μ) : Step r net .tau net
  | post (net : Net ι μ) (d : ι) (m : μ) : Step r net (.post d m) (net.post r d m)
  | get (net : Net ι μ) (s : ι) (m : μ) (h : (net.sent s r)[net.rcvd s r]? = some m) :
      Step r net (.get s m) (net.take s r)
  | flush (net : Net ι μ) (d : ι) : Step r net (.flush d) net

/-- The communication also completes in a network that buffers nothing. -/
def Unbuffered (r : ι) (net : Net ι μ) : Comm ι μ → Prop
  | .flush d => net.rcvd r d = (net.sent r d).length
  | _ => True

@[simp] theorem post_sent_self (net : Net ι μ) (s d : ι) (m : μ) :
    (net.post s d m).sent s d = net.sent s d ++ [m] :=
  if_pos ⟨rfl, rfl⟩

theorem post_sent_of_ne (net : Net ι μ) {s d s' d' : ι} (m : μ) (h : ¬ (s' = s ∧ d' = d)) :
    (net.post s d m).sent s' d' = net.sent s' d' :=
  if_neg h

@[simp] theorem take_rcvd_self (net : Net ι μ) (s d : ι) :
    (net.take s d).rcvd s d = net.rcvd s d + 1 :=
  if_pos ⟨rfl, rfl⟩

theorem take_rcvd_of_ne (net : Net ι μ) {s d s' d' : ι} (h : ¬ (s' = s ∧ d' = d)) :
    (net.take s d).rcvd s' d' = net.rcvd s' d' :=
  if_neg h

end Net

/-- The next step of a process, as a function of its local state: `halt` when it has
finished, `fail` when its behaviour is undefined. -/
inductive Action (ι μ σ : Type*)
  | halt
  | fail
  | tau (st : σ)
  | post (dst : ι) (m : μ) (st : σ)
  | get (src : ι) (k : μ → σ)
  | flush (dst : ι) (st : σ)

/-- The communication and the next local state an action allows. -/
inductive Action.Does : Action ι μ σ → Comm ι μ → σ → Prop
  | tau (st : σ) : Does (.tau st) .tau st
  | post (dst : ι) (m : μ) (st : σ) : Does (.post dst m st) (.post dst m) st
  | get (src : ι) (k : μ → σ) (m : μ) : Does (.get src k) (.get src m) (k m)
  | flush (dst : ι) (st : σ) : Does (.flush dst st) (.flush dst) st

section Moves

variable [DecidableEq ι] {net : Net ι μ} {r s d : ι} {st : σ}

/-- Process `r` can do the action without relying on buffering. -/
def CanMove (net : Net ι μ) (r : ι) (a : Action ι μ σ) : Prop :=
  ∃ l st net', a.Does l st ∧ net.Step r l net' ∧ net.Unbuffered r l

theorem canMove_tau (net : Net ι μ) (r : ι) (st : σ) : CanMove net r (.tau st) :=
  ⟨.tau, st, net, .tau st, .tau net, trivial⟩

theorem canMove_post (net : Net ι μ) (r d : ι) (m : μ) (st : σ) :
    CanMove net r (.post d m st) :=
  ⟨.post d m, st, net.post r d m, .post d m st, .post net d m, trivial⟩

theorem canMove_get (k : μ → σ) (hm : ∃ m, (net.sent s r)[net.rcvd s r]? = some m) :
    CanMove net r (.get s k) := by
  obtain ⟨m, hm⟩ := hm
  exact ⟨.get s m, k m, net.take s r, .get s k m, .get net s m hm, trivial⟩

theorem canMove_flush (st : σ) (hempty : net.rcvd r d = (net.sent r d).length) :
    CanMove net r (.flush d st) :=
  ⟨.flush d, st, net, .flush d st, .flush net d, hempty⟩

/-- A receive waits only while there is no message. -/
theorem canMove_get_or (k : μ → σ) (hle : net.rcvd s r ≤ (net.sent s r).length) :
    CanMove net r (.get s k) ∨ net.rcvd s r = (net.sent s r).length := by
  rcases hle.lt_or_eq with hlt | heq
  · exact Or.inl (canMove_get k ⟨_, List.getElem?_eq_getElem hlt⟩)
  · exact Or.inr heq

/-- A flush waits only while a message is not taken. -/
theorem canMove_flush_or (st : σ) (hle : net.rcvd r d ≤ (net.sent r d).length) :
    CanMove net r (.flush d st) ∨ net.rcvd r d < (net.sent r d).length := by
  rcases hle.lt_or_eq with hlt | heq
  · exact Or.inr hlt
  · exact Or.inl (canMove_flush st heq)

end Moves

structure Config (ι μ σ : Type*) where
  loc : ι → σ
  net : Net ι μ

section Runs

variable [DecidableEq ι] (act : ι → σ → Action ι μ σ)

/-- One process makes one step. -/
inductive Step : Config ι μ σ → Config ι μ σ → Prop
  | mk (c : Config ι μ σ) (r : ι) (l : Comm ι μ) (st : σ) (net : Net ι μ)
      (hdo : (act r (c.loc r)).Does l st) (hnet : c.net.Step r l net) :
      Step c { loc := Function.update c.loc r st, net := net }

/-- Some process can make a step that relies on no buffering. -/
def CanStep (c : Config ι μ σ) : Prop := ∃ r, CanMove c.net r (act r (c.loc r))

/-- Any interleaving of the processes' steps. -/
def Reach : Config ι μ σ → Config ι μ σ → Prop := Relation.ReflTransGen (Step act)

variable {act}

/-- What holds at the start and is preserved by every step holds throughout. -/
theorem Reach.invariant {P : Config ι μ σ → Prop} {c c' : Config ι μ σ}
    (hreach : Reach act c c') (hinit : P c) (hstep : ∀ d d', P d → Step act d d' → P d') :
    P c' := by
  induction hreach with
  | refl => exact hinit
  | tail _ hlast ih => exact hstep _ _ ih hlast

theorem CanStep.exists_step {c : Config ι μ σ} (h : CanStep act c) : ∃ c', Step act c c' := by
  obtain ⟨r, l, st, net, hdo, hnet, -⟩ := h
  exact ⟨_, .mk c r l st net hdo hnet⟩

/-- A step that lowers a bound of its process lowers the sum of all bounds. -/
theorem sum_update_lt [Fintype ι] {bound : σ → ℕ} {loc : ι → σ} {r : ι} {st : σ}
    (hlt : bound st < bound (loc r)) :
    ∑ q, bound (Function.update loc r st q) < ∑ q, bound (loc q) := by
  refine Finset.sum_lt_sum (fun q _ => ?_) ⟨r, Finset.mem_univ r, ?_⟩
  · by_cases hq : q = r
    · subst hq
      rw [Function.update_self]
      exact hlt.le
    · rw [Function.update_of_ne hq]
  · rwa [Function.update_self]

/-- When every step lowers a bound of the process that makes it, no run is infinite. `P` is what
is known about the configurations. -/
theorem not_infinite [Fintype ι] {P : Config ι μ σ → Prop} (bound : σ → ℕ)
    (hstep : ∀ d d', P d → Step act d d' → P d')
    (hdoes : ∀ {d r l st}, P d → (act r (d.loc r)).Does l st → bound st < bound (d.loc r))
    {c : Config ι μ σ} (hc : P c) :
    ¬ ∃ f : ℕ → Config ι μ σ, f 0 = c ∧ ∀ n, Step act (f n) (f (n + 1)) := by
  rintro ⟨f, rfl, hf⟩
  have hsum : ∀ n, P (f n) ∧ ∑ q, bound ((f n).loc q) + n ≤ ∑ q, bound ((f 0).loc q) := by
    intro n
    induction n with
    | zero => exact ⟨hc, le_rfl⟩
    | succ n ih =>
      obtain ⟨hn, hle⟩ := ih
      have hnext := hf n
      generalize f (n + 1) = c' at hnext ⊢
      refine ⟨hstep _ _ hn hnext, ?_⟩
      obtain ⟨r, l, st, net, hdo, -⟩ := hnext
      have hlt := sum_update_lt (hdoes hn hdo)
      show ∑ q, bound (Function.update (f n).loc r st q) + (n + 1) ≤ _
      omega
  have hle := (hsum (∑ q, bound ((f 0).loc q) + 1)).2
  omega

/-- When every step lowers a bound of the process that makes it, every run ends. `I` is what
is known about the states of the processes. -/
theorem exists_terminal [Fintype ι] {I : ι → σ → Prop} {bound : σ → ℕ}
    (hdoes : ∀ {r st l st'}, I r st → (act r st).Does l st' → I r st' ∧ bound st' < bound st)
    (c : Config ι μ σ) (hc : ∀ r, I r (c.loc r)) :
    ∃ c', Reach act c c' ∧ ∀ c'', ¬ Step act c' c'' := by
  induction hn : ∑ r, bound (c.loc r) using Nat.strong_induction_on generalizing c with
  | _ n ih =>
    by_cases hstep : ∃ c', Step act c c'
    · obtain ⟨c', hstep⟩ := hstep
      obtain ⟨r, l, st, net, hdo, hnet⟩ := hstep
      obtain ⟨hst, hlt⟩ := hdoes (hc r) hdo
      have hall : ∀ q, I q (Function.update c.loc r st q) := by
        intro q
        by_cases hq : q = r
        · subst hq
          rwa [Function.update_self]
        · rw [Function.update_of_ne hq]
          exact hc q
      obtain ⟨c', hreach, hterminal⟩ := ih _ (hn ▸ sum_update_lt hlt) ⟨_, net⟩ hall rfl
      exact ⟨c', .head (.mk c r l st net hdo hnet) hreach, hterminal⟩
    · exact ⟨c, .refl, fun c'' h => hstep ⟨c'', h⟩⟩

end Runs

end Fifo
