import Mathlib.Data.List.Forall2
import Mathlib.Tactic
import ReproMPI.Lib.Fifo

/-!
# Communication in rounds

Many collective algorithms number their exchanges: in round `g` process `s` posts at most
one message, to the process `dst g s`, and every process gets at most one message. The
processes are not synchronized, so a process may be rounds ahead of another, and all rounds
share the FIFO channels.

`Tracks` is the invariant that ties the channels to the rounds: each channel holds exactly
the messages of the rounds its sender has completed and its receiver has not. Hence a
process always gets the message that was posted for the round it is in.
-/

namespace Fifo

/-- Whom each process posts to in each round; nobody is posted to twice in a round. -/
structure Schedule (ι : Type*) where
  dst : ℕ → ι → Option ι
  dst_inj : ∀ {g s s' d}, dst g s = some d → dst g s' = some d → s = s'

variable {ι μ : Type*} [DecidableEq ι]

namespace Schedule

/-- The rounds below `n` in which `s` posts to `d`. -/
def rounds (S : Schedule ι) (s d : ι) (n : ℕ) : List ℕ :=
  (List.range n).filter fun g => S.dst g s = some d

variable {S : Schedule ι} {s d : ι} {g n n' : ℕ}

theorem rounds_succ_of_dst (h : S.dst n s = some d) :
    S.rounds s d (n + 1) = S.rounds s d n ++ [n] := by
  simp [rounds, List.range_succ, h]

theorem rounds_succ_of_ne (h : S.dst n s ≠ some d) : S.rounds s d (n + 1) = S.rounds s d n := by
  simp [rounds, List.range_succ, h]

/-- Two bounds that cut off the same rounds. -/
theorem rounds_congr (h : ∀ g, S.dst g s = some d → (g < n ↔ g < n')) :
    S.rounds s d n = S.rounds s d n' := by
  wlog hle : n ≤ n' generalizing n n'
  · exact (this (fun g hg => (h g hg).symm) (Nat.le_of_not_le hle)).symm
  obtain ⟨k, rfl⟩ := Nat.exists_eq_add_of_le hle
  clear hle
  induction k with
  | zero => rfl
  | succ k ih =>
    have hne : S.dst (n + k) s ≠ some d := fun hd => by
      have := h (n + k) hd
      omega
    rw [← Nat.add_assoc, rounds_succ_of_ne hne]
    apply ih
    intro g hg
    rw [h g hg]
    have : g ≠ n + k := fun he => hne (he ▸ hg)
    omega

/-- The rounds before `g` are the index of `g` among all rounds. -/
theorem rounds_getElem (hd : S.dst g s = some d) (hg : g < n) :
    (S.rounds s d n)[(S.rounds s d g).length]? = some g := by
  induction n with
  | zero => exact absurd hg (Nat.not_lt_zero g)
  | succ n ih =>
    rcases Nat.lt_succ_iff_lt_or_eq.mp hg with hlt | rfl
    · have hbound := (List.getElem?_eq_some_iff.mp (ih hlt)).1
      by_cases hn : S.dst n s = some d
      · rw [rounds_succ_of_dst hn, List.getElem?_append_left hbound]
        exact ih hlt
      · rw [rounds_succ_of_ne hn]
        exact ih hlt
    · rw [rounds_succ_of_dst hd, List.getElem?_concat_length]

theorem rounds_length_mono (h : n ≤ n') :
    (S.rounds s d n).length ≤ (S.rounds s d n').length := by
  obtain ⟨k, rfl⟩ := Nat.exists_eq_add_of_le h
  rw [rounds, rounds, List.range_add, List.filter_append, List.length_append]
  exact Nat.le_add_right _ _

end Schedule

/-- Process `s` has posted in its rounds below `posted s`, process `d` has got in its
rounds below `got d`, and every message of `s` for round `g` satisfies `P s g`. -/
structure Tracks (S : Schedule ι) (P : ι → ℕ → μ → Prop) (posted got : ι → ℕ)
    (net : Net ι μ) : Prop where
  sent : ∀ s d, List.Forall₂ (P s) (S.rounds s d (posted s)) (net.sent s d)
  rcvd : ∀ s d, net.rcvd s d = (S.rounds s d (got d)).length
  behind : ∀ g s d, S.dst g s = some d → g < got d → g < posted s

namespace Tracks

variable {S : Schedule ι} {P P' : ι → ℕ → μ → Prop} {posted posted' got got' : ι → ℕ}
  {net : Net ι μ} {r s d : ι} {g n : ℕ} {m : μ}

theorem empty (hposted : ∀ r, posted r = 0) (hgot : ∀ r, got r = 0) :
    Tracks S P posted got Net.empty where
  sent s d := by
    rw [hposted s]
    exact List.Forall₂.nil
  rcvd s d := by
    rw [hgot d]
    rfl
  behind g s d _ hg := absurd hg (by simp [hgot d])

theorem mono (h : Tracks S P posted got net) (hP : ∀ s g m, P s g m → P' s g m) :
    Tracks S P' posted got net where
  sent s d := (h.sent s d).imp fun _ _ => hP s _ _
  rcvd := h.rcvd
  behind := h.behind

theorem congr (h : Tracks S P posted got net) (hposted : ∀ r, posted' r = posted r)
    (hgot : ∀ r, got' r = got r) : Tracks S P posted' got' net := by
  obtain rfl : posted' = posted := funext hposted
  obtain rfl : got' = got := funext hgot
  exact h

/-- `r` posts the message of its next round. -/
theorem post (h : Tracks S P posted got net) (hdst : S.dst (posted r) r = some d)
    (hm : P r (posted r) m) (hr : posted' r = posted r + 1)
    (hother : ∀ q, q ≠ r → posted' q = posted q) :
    Tracks S P posted' got (net.post r d m) where
  sent s d' := by
    by_cases hs : s = r
    · subst hs
      rw [hr]
      by_cases hd : d' = d
      · subst hd
        rw [Schedule.rounds_succ_of_dst hdst, Net.post_sent_self]
        exact List.rel_append (h.sent s d') (.cons hm .nil)
      · have hne : S.dst (posted s) s ≠ some d' := fun he =>
          hd (Option.some.inj (he.symm.trans hdst))
        rw [Schedule.rounds_succ_of_ne hne, Net.post_sent_of_ne _ _ fun hc => hd hc.2]
        exact h.sent s d'
    · rw [hother s hs, Net.post_sent_of_ne _ _ fun hc => hs hc.1]
      exact h.sent s d'
  rcvd := h.rcvd
  behind g s d' hd hg := by
    have hlt := h.behind g s d' hd hg
    by_cases hs : s = r
    · subst hs
      rw [hr]
      exact Nat.lt_succ_of_lt hlt
    · rwa [hother s hs]

/-- The message `r` gets is the one posted for the round it is in. -/
theorem get (h : Tracks S P posted got net) (hdst : S.dst (got r) s = some r)
    (hm : (net.sent s r)[net.rcvd s r]? = some m) (hr : got' r = got r + 1)
    (hother : ∀ q, q ≠ r → got' q = got q) :
    got r < posted s ∧ P s (got r) m ∧ Tracks S P posted got' (net.take s r) := by
  have hforall := h.sent s r
  rw [h.rcvd s r] at hm
  obtain ⟨hidx, hget⟩ := List.getElem?_eq_some_iff.mp hm
  have hlen := hforall.length_eq
  have hlt : got r < posted s := by
    by_contra hle
    have := Schedule.rounds_length_mono (S := S) (s := s) (d := r) (Nat.le_of_not_lt hle)
    omega
  obtain ⟨hidx', hround⟩ := List.getElem?_eq_some_iff.mp (Schedule.rounds_getElem hdst hlt)
  refine ⟨hlt, ?_, h.sent, ?_, ?_⟩
  · have hP := List.Forall₂.get hforall hidx' hidx
    simp only [List.get_eq_getElem, hround, hget] at hP
    exact hP
  · intro s' d'
    by_cases hd : d' = r
    · subst hd
      rw [hr]
      by_cases hs : s' = s
      · subst hs
        rw [Schedule.rounds_succ_of_dst hdst, Net.take_rcvd_self, h.rcvd, List.length_append]
        rfl
      · have hne : S.dst (got d') s' ≠ some d' := fun he => hs (S.dst_inj he hdst)
        rw [Schedule.rounds_succ_of_ne hne, Net.take_rcvd_of_ne _ fun hc => hs hc.1]
        exact h.rcvd s' d'
    · rw [hother d' hd, Net.take_rcvd_of_ne _ fun hc => hd hc.2]
      exact h.rcvd s' d'
  · intro g s' d' hd hg
    by_cases hr' : d' = r
    · subst hr'
      rw [hr] at hg
      rcases Nat.lt_succ_iff_lt_or_eq.mp hg with hg | rfl
      · exact h.behind g s' d' hd hg
      · obtain rfl := S.dst_inj hd hdst
        exact hlt
    · rw [hother d' hr'] at hg
      exact h.behind g s' d' hd hg

/-- `r` passes over rounds in which it posts nothing. -/
theorem skipPost (h : Tracks S P posted got net) (hr : posted r ≤ posted' r)
    (hnone : ∀ g, posted r ≤ g → g < posted' r → S.dst g r = none)
    (hother : ∀ q, q ≠ r → posted' q = posted q) : Tracks S P posted' got net where
  sent s d := by
    by_cases hs : s = r
    · subst hs
      have hrounds : S.rounds s d (posted' s) = S.rounds s d (posted s) := by
        apply Schedule.rounds_congr
        intro g hd
        have : ¬ (posted s ≤ g ∧ g < posted' s) := fun hc => by
          rw [hnone g hc.1 hc.2] at hd
          exact absurd hd (by simp)
        omega
      rw [hrounds]
      exact h.sent s d
    · rw [hother s hs]
      exact h.sent s d
  rcvd := h.rcvd
  behind g s d hd hg := by
    have hlt := h.behind g s d hd hg
    by_cases hs : s = r
    · subst hs
      omega
    · rwa [hother s hs]

/-- `r` passes over rounds in which nobody posts to it. -/
theorem skipGet (h : Tracks S P posted got net) (hr : got r ≤ got' r)
    (hnone : ∀ g s, got r ≤ g → g < got' r → S.dst g s ≠ some r)
    (hother : ∀ q, q ≠ r → got' q = got q) : Tracks S P posted got' net where
  sent := h.sent
  rcvd s d := by
    by_cases hd : d = r
    · subst hd
      rw [h.rcvd, Schedule.rounds_congr]
      intro g hdst
      have : ¬ (got d ≤ g ∧ g < got' d) := fun hc => hnone g s hc.1 hc.2 hdst
      omega
    · rw [hother d hd]
      exact h.rcvd s d
  behind g s d hd hg := by
    by_cases hr' : d = r
    · subst hr'
      refine h.behind g s d hd ?_
      by_contra hge
      exact hnone g s (Nat.le_of_not_lt hge) hg hd
    · rw [hother d hr'] at hg
      exact h.behind g s d hd hg

/-- A process can get as soon as its partner has posted. -/
theorem exists_message (h : Tracks S P posted got net) (hdst : S.dst (got r) s = some r)
    (hlt : got r < posted s) : ∃ m, (net.sent s r)[net.rcvd s r]? = some m := by
  have hbound := (List.getElem?_eq_some_iff.mp (Schedule.rounds_getElem hdst hlt)).1
  rw [(h.sent s r).length_eq, ← h.rcvd] at hbound
  exact ⟨_, List.getElem?_eq_getElem hbound⟩

/-- The channel from `r` is empty once its receiver has caught up. -/
theorem flushed (h : Tracks S P posted got net)
    (hgot : ∀ g, g < posted r → S.dst g r = some d → g < got d) :
    net.rcvd r d = (net.sent r d).length := by
  rw [h.rcvd, ← (h.sent r d).length_eq]
  congr 1
  refine Schedule.rounds_congr fun g hd => ⟨h.behind g r d hd, fun hg => hgot g hg hd⟩

section Blocking

/-! A process posts in a round before it gets in it, so its position is `posted + got`. Two
processes that are exchanging messages cannot both wait for a process that is behind them. -/

/-- The message of a partner that is at least as far has been posted. -/
theorem receivable (h : Tracks S P posted got net) (hdst : S.dst (got r) s = some r)
    (hr : got r < posted r) (hs : got s ≤ posted s)
    (hfar : posted r + got r ≤ posted s + got s) :
    ∃ m, (net.sent s r)[net.rcvd s r]? = some m :=
  h.exists_message hdst (by omega)

/-- A receiver that is at least as far has taken the messages posted to it. -/
theorem completable (h : Tracks S P posted got net) (hr : posted r ≤ got r)
    (hd : posted d ≤ got d + 1) (hfar : posted r + got r ≤ posted d + got d) :
    net.rcvd r d = (net.sent r d).length :=
  h.flushed fun g hg _ => by omega

end Blocking

section Local

/-! The positions of the processes as functions of their local states, and one process
changing its local state. -/

variable {σ : Type*} {f g : ι → σ → ℕ} {loc : ι → σ} {x : σ} {k : ℕ}

theorem update_pos (f : ι → σ → ℕ) (loc : ι → σ) (x : σ) {q : ι} (hq : q ≠ r) :
    f q (Function.update loc r x q) = f q (loc q) := by
  rw [Function.update_of_ne hq]

/-- A step without communication; the process may pass over rounds it has no part in. -/
theorem localStep (h : Tracks S P (fun q => f q (loc q)) (fun q => g q (loc q)) net)
    (hf : f r (loc r) ≤ f r x) (hg : g r (loc r) ≤ g r x)
    (hpost : ∀ n, f r (loc r) ≤ n → n < f r x → S.dst n r = none)
    (hget : ∀ n s, g r (loc r) ≤ n → n < g r x → S.dst n s ≠ some r) :
    Tracks S P (fun q => f q (Function.update loc r x q))
      (fun q => g q (Function.update loc r x q)) net := by
  have hpost' : Tracks S P (fun q => f q (Function.update loc r x q))
      (fun q => g q (loc q)) net := by
    apply h.skipPost (r := r)
    · simpa using hf
    · simpa using hpost
    · exact fun q hq => update_pos f loc x hq
  apply hpost'.skipGet (r := r)
  · simpa using hg
  · simpa using hget
  · exact fun q hq => update_pos g loc x hq

/-- A step within a round. -/
theorem stay (h : Tracks S P (fun q => f q (loc q)) (fun q => g q (loc q)) net)
    (hf : f r x = f r (loc r)) (hg : g r x = g r (loc r)) :
    Tracks S P (fun q => f q (Function.update loc r x q))
      (fun q => g q (Function.update loc r x q)) net := by
  apply h.localStep hf.ge hg.ge
  · intro n hn hn'
    omega
  · intro n s hn hn'
    omega

/-- The post of a round. -/
theorem localPost (h : Tracks S P (fun q => f q (loc q)) (fun q => g q (loc q)) net)
    (hdst : S.dst (f r (loc r)) r = some d) (hm : P r (f r (loc r)) m)
    (hf : f r x = f r (loc r) + 1) (hg : g r x = g r (loc r)) :
    Tracks S P (fun q => f q (Function.update loc r x q))
      (fun q => g q (Function.update loc r x q)) (net.post r d m) := by
  have hpost : Tracks S P (fun q => f q (Function.update loc r x q))
      (fun q => g q (loc q)) (net.post r d m) := by
    apply h.post hdst hm
    · simpa using hf
    · exact fun q hq => update_pos f loc x hq
  apply hpost.congr fun _ => rfl
  intro q
  by_cases hq : q = r
  · subst hq
    simpa using hg
  · exact update_pos g loc x hq

/-- The get of a round, together with what it tells about the message. -/
theorem localGet (h : Tracks S P (fun q => f q (loc q)) (fun q => g q (loc q)) net)
    (hdst : S.dst (g r (loc r)) s = some r) (hm : (net.sent s r)[net.rcvd s r]? = some m)
    (hf : f r x = f r (loc r)) (hg : g r x = g r (loc r) + 1) :
    g r (loc r) < f s (loc s) ∧ P s (g r (loc r)) m ∧
      Tracks S P (fun q => f q (Function.update loc r x q))
        (fun q => g q (Function.update loc r x q)) (net.take s r) := by
  obtain ⟨hlt, hP, htracks⟩ : g r (loc r) < f s (loc s) ∧ P s (g r (loc r)) m ∧
      Tracks S P (fun q => f q (loc q)) (fun q => g q (Function.update loc r x q))
        (net.take s r) := by
    apply h.get hdst hm
    · simpa using hg
    · exact fun q hq => update_pos g loc x hq
  refine ⟨hlt, hP, htracks.congr (fun q => ?_) fun _ => rfl⟩
  by_cases hq : q = r
  · subst hq
    simpa using hf
  · exact update_pos f loc x hq

end Local

end Tracks

end Fifo
