import Mathlib.Data.Fintype.BigOperators
import Mathlib.Logic.Relation
import Mathlib.Tactic

/-!
# Point-to-point messages with requests

A process starts sends and receives, keeps their requests in variables and waits for them. The
`k`-th message from `s` to `d` is for the `k`-th receive that `d` starts from `s`. A send may
have to wait for the receive, or it is buffered: `eager` says which are.

What a process can do depends on what the others have started so far, and they only ever start
more. So the steps of different processes commute, and one complete schedule decides for all:
none gets stuck, and all end in the same way.
-/

namespace Requests

variable {ι μ σ : Type*}

/-- What a process does next. Requests are kept in numbered variables. -/
inductive Op (ι μ σ : Type*)
  | compute (f : σ → σ)
  | isend (dest : ι) (msg : σ → μ) (req : ℕ)
  | irecv (source : ι) (store : μ → σ → σ) (req : ℕ)
  | waitall (reqs : List ℕ)

/-- The `k`-th send to a process, or the `k`-th receive from one. -/
inductive Request (ι μ σ : Type*)
  | send (dest : ι) (k : ℕ)
  | recv (source : ι) (k : ℕ) (store : μ → σ → σ)

structure Proc (ι μ σ : Type*) where
  todo : List (Op ι μ σ)
  mem : σ
  reqs : ℕ → Option (Request ι μ σ)
  /-- The messages of the sends to each process. -/
  sent : ι → List μ
  /-- How many receives have been started from each process. -/
  posted : ι → ℕ

/-- What the others have started for one process. -/
structure View (ι μ : Type*) where
  sent : ι → List μ
  posted : ι → ℕ

namespace Op

/-! The blocking operations use the variables `0` and `1`. -/

/-- `MPI_Send`. -/
def send (dest : ι) (msg : σ → μ) : List (Op ι μ σ) := [.isend dest msg 0, .waitall [0]]

/-- `MPI_Recv`. -/
def recv (source : ι) (store : μ → σ → σ) : List (Op ι μ σ) :=
  [.irecv source store 1, .waitall [1]]

/-- `MPI_Sendrecv`: the send and the receive are under way at the same time. -/
def sendrecv (dest : ι) (msg : σ → μ) (source : ι) (store : μ → σ → σ) : List (Op ι μ σ) :=
  [.isend dest msg 0, .irecv source store 1, .waitall [0, 1]]

end Op

namespace Request

/-- The request can be completed. -/
def Complete (eager : ι → ℕ → Bool) (v : View ι μ) : Request ι μ σ → Prop
  | .send dest k => eager dest k = true ∨ k < v.posted dest
  | .recv source k _ => k < (v.sent source).length

instance (eager : ι → ℕ → Bool) (v : View ι μ) :
    DecidablePred (Request.Complete (σ := σ) eager v)
  | .send _ _ => inferInstanceAs (Decidable (_ ∨ _))
  | .recv _ _ _ => inferInstanceAs (Decidable (_ < _))

/-- The message of a receive is stored. -/
def store (v : View ι μ) : Request ι μ σ → σ → σ
  | .send _ _, mem => mem
  | .recv source k store, mem =>
    match (v.sent source)[k]? with
    | some m => store m mem
    | none => mem

end Request

namespace Proc

variable [DecidableEq ι]

/-- `MPI_Isend`. -/
def isend (p : Proc ι μ σ) (dest : ι) (msg : σ → μ) (req : ℕ) : Proc ι μ σ :=
  { p with
    todo := p.todo.tail
    reqs := Function.update p.reqs req (some (.send dest (p.sent dest).length))
    sent := Function.update p.sent dest (p.sent dest ++ [msg p.mem]) }

/-- `MPI_Irecv`. -/
def irecv (p : Proc ι μ σ) (source : ι) (store : μ → σ → σ) (req : ℕ) : Proc ι μ σ :=
  { p with
    todo := p.todo.tail
    reqs := Function.update p.reqs req (some (.recv source (p.posted source) store))
    posted := Function.update p.posted source (p.posted source + 1) }

/-- All requests of the list can be completed. -/
def CanWait (eager : ι → ℕ → Bool) (v : View ι μ) (p : Proc ι μ σ) (reqs : List ℕ) : Prop :=
  ∀ req ∈ reqs, ∀ q ∈ p.reqs req, q.Complete eager v

omit [DecidableEq ι] in
instance (eager : ι → ℕ → Bool) (v : View ι μ) (p : Proc ι μ σ) (reqs : List ℕ) :
    Decidable (p.CanWait eager v reqs) :=
  inferInstanceAs (Decidable (∀ req ∈ reqs, ∀ q ∈ p.reqs req, q.Complete eager v))

/-- `MPI_Waitall`: the messages are stored and the variables are null requests. -/
def waitall (v : View ι μ) (p : Proc ι μ σ) (reqs : List ℕ) : Proc ι μ σ :=
  { p with
    todo := p.todo.tail
    mem := (reqs.filterMap p.reqs).foldl (fun mem q => q.store v mem) p.mem
    reqs := fun req => if req ∈ reqs then none else p.reqs req }

/-- What becomes of the process; `none` when it has to wait or is done. -/
def next (eager : ι → ℕ → Bool) (v : View ι μ) (p : Proc ι μ σ) : Option (Proc ι μ σ) :=
  match p.todo with
  | [] => none
  | .compute f :: rest => some { p with todo := rest, mem := f p.mem }
  | .isend dest msg req :: _ => some (p.isend dest msg req)
  | .irecv source store req :: _ => some (p.irecv source store req)
  | .waitall reqs :: _ => if p.CanWait eager v reqs then some (p.waitall v reqs) else none

end Proc

variable [DecidableEq ι]

section Fields

variable {p : Proc ι μ σ} {r : ι} {msg : σ → μ} {store : μ → σ → σ} {req : ℕ}

@[simp] theorem Proc.isend_todo : (p.isend r msg req).todo = p.todo.tail := rfl

@[simp] theorem Proc.isend_mem : (p.isend r msg req).mem = p.mem := rfl

@[simp] theorem Proc.isend_reqs :
    (p.isend r msg req).reqs req = some (.send r (p.sent r).length) :=
  Function.update_self ..

theorem Proc.isend_reqs_of_ne {req' : ℕ} (h : req' ≠ req) :
    (p.isend r msg req).reqs req' = p.reqs req' :=
  Function.update_of_ne h ..

@[simp] theorem Proc.isend_sent : (p.isend r msg req).sent r = p.sent r ++ [msg p.mem] :=
  Function.update_self ..

@[simp] theorem Proc.isend_posted : (p.isend r msg req).posted = p.posted := rfl

@[simp] theorem Proc.irecv_todo : (p.irecv r store req).todo = p.todo.tail := rfl

@[simp] theorem Proc.irecv_mem : (p.irecv r store req).mem = p.mem := rfl

@[simp] theorem Proc.irecv_reqs :
    (p.irecv r store req).reqs req = some (.recv r (p.posted r) store) :=
  Function.update_self ..

theorem Proc.irecv_reqs_of_ne {req' : ℕ} (h : req' ≠ req) :
    (p.irecv r store req).reqs req' = p.reqs req' :=
  Function.update_of_ne h ..

@[simp] theorem Proc.irecv_sent : (p.irecv r store req).sent = p.sent := rfl

@[simp] theorem Proc.irecv_posted : (p.irecv r store req).posted r = p.posted r + 1 :=
  Function.update_self ..

end Fields

/-- What the others have started for `r`. -/
def view (c : ι → Proc ι μ σ) (r : ι) : View ι μ where
  sent s := (c s).sent r
  posted d := (c d).posted r

/-- One process makes a step. -/
def Step (eager : ι → ι → ℕ → Bool) (c c' : ι → Proc ι μ σ) : Prop :=
  ∃ r p, (c r).next (eager r) (view c r) = some p ∧ c' = Function.update c r p

/-- The processes make steps in any order. -/
def Reach (eager : ι → ι → ℕ → Bool) : (ι → Proc ι μ σ) → (ι → Proc ι μ σ) → Prop :=
  Relation.ReflTransGen (Step eager)

/-- No process has anything left to do. -/
def Done (c : ι → Proc ι μ σ) : Prop := ∀ r, (c r).todo = []

/-- No send is buffered. -/
def rendezvous : ι → ι → ℕ → Bool := fun _ _ _ => false

/-! ## More messages -/

/-- More has been started. -/
structure View.Le (v v' : View ι μ) : Prop where
  sent : ∀ s, v.sent s <+: v'.sent s
  posted : ∀ d, v.posted d ≤ v'.posted d

section Next

variable {eager eager' : ι → ℕ → Bool} {v v' : View ι μ} {p p' : Proc ι μ σ}
  {q : Request ι μ σ}

omit [DecidableEq ι] in
theorem Request.Complete.mono (h : q.Complete eager v) (hv : v.Le v')
    (he : ∀ d k, eager d k = true → eager' d k = true) : q.Complete eager' v' := by
  cases q with
  | send dest k => exact h.imp (he dest k) fun hk => hk.trans_le (hv.posted dest)
  | recv source k store => exact lt_of_lt_of_le h (hv.sent source).length_le

omit [DecidableEq ι] in
/-- A message does not change when more are sent. -/
theorem Request.Complete.store_eq (h : q.Complete eager v) (hv : v.Le v') :
    q.store v' = q.store v := by
  cases q with
  | send dest k => rfl
  | recv source k store =>
    obtain ⟨more, hmore⟩ := hv.sent source
    funext mem
    simp only [Request.store, ← hmore]
    rw [List.getElem?_append_left h]

/-- A process that can make a step can make the same step later. -/
theorem Proc.next_mono (h : p.next eager v = some p') (hv : v.Le v')
    (he : ∀ d k, eager d k = true → eager' d k = true) : p.next eager' v' = some p' := by
  rw [Proc.next] at h ⊢
  split at h
  · cases h
  · exact h
  · exact h
  · exact h
  · next reqs rest htodo =>
    obtain ⟨hwait, hp'⟩ := Option.ite_none_right_eq_some.mp h
    have hwait' : p.CanWait eager' v' reqs := fun req hreq q hq => (hwait req hreq q hq).mono hv he
    rw [if_pos hwait', ← hp']
    have hstore : ∀ mem, ∀ q ∈ reqs.filterMap p.reqs, q.store v' mem = q.store v mem := by
      intro mem q hq
      obtain ⟨req, hreq, hq⟩ := List.mem_filterMap.mp hq
      rw [(hwait req hreq q hq).store_eq hv]
    simp only [Proc.waitall]
    rw [List.foldl_ext _ _ _ hstore]

/-- A step starts at most more. -/
theorem Proc.next_grows (h : p.next eager v = some p') :
    (∀ d, p.sent d <+: p'.sent d) ∧ ∀ s, p.posted s ≤ p'.posted s := by
  rw [Proc.next] at h
  split at h
  · cases h
  · cases h
    exact ⟨fun d => List.prefix_rfl, fun s => le_rfl⟩
  · next dest msg req rest htodo =>
    cases h
    refine ⟨fun d => ?_, fun s => le_rfl⟩
    simp only [Proc.isend, Function.update_apply]
    split
    · next heq => exact heq ▸ List.prefix_append _ _
    · exact List.prefix_rfl
  · next source store req rest htodo =>
    cases h
    refine ⟨fun d => List.prefix_rfl, fun s => ?_⟩
    simp only [Proc.irecv, Function.update_apply]
    split
    · next heq => exact heq ▸ Nat.le_succ _
    · exact le_rfl
  · cases (Option.ite_none_right_eq_some.mp h).2
    exact ⟨fun d => List.prefix_rfl, fun s => le_rfl⟩

/-- Every step takes one operation from the list. -/
theorem Proc.next_todo (h : p.next eager v = some p') : ∃ op, p.todo = op :: p'.todo := by
  rw [Proc.next] at h
  split at h
  · cases h
  · next htodo =>
    cases h
    exact ⟨_, htodo⟩
  · next htodo =>
    cases h
    exact ⟨_, htodo.trans (congrArg (List.cons _) (congrArg List.tail htodo).symm)⟩
  · next htodo =>
    cases h
    exact ⟨_, htodo.trans (congrArg (List.cons _) (congrArg List.tail htodo).symm)⟩
  · next htodo =>
    cases (Option.ite_none_right_eq_some.mp h).2
    exact ⟨_, htodo.trans (congrArg (List.cons _) (congrArg List.tail htodo).symm)⟩

end Next

/-! ## Steps of different processes -/

section Steps

variable {eager eager' : ι → ι → ℕ → Bool} {c c' c₁ c₂ : ι → Proc ι μ σ} {r r' : ι}
  {p p' : Proc ι μ σ}

/-- A step of one process is seen by the others. -/
theorem view_le (h : (c r).next (eager r) (view c r) = some p) :
    (view c r').Le (view (Function.update c r p) r') := by
  obtain ⟨hsent, hposted⟩ := Proc.next_grows h
  refine ⟨fun s => ?_, fun d => ?_⟩
  · simp only [view, Function.update_apply]
    split
    · next heq => exact heq ▸ hsent r'
    · exact List.prefix_rfl
  · simp only [view, Function.update_apply]
    split
    · next heq => exact heq ▸ hposted r'
    · exact le_rfl

/-- It does not keep them from their own next step. -/
theorem next_update (hne : r' ≠ r) (h : (c r).next (eager r) (view c r) = some p)
    (h' : (c r').next (eager r') (view c r') = some p') :
    (Function.update c r p r').next (eager r') (view (Function.update c r p) r') = some p' := by
  rw [Function.update_of_ne hne]
  exact Proc.next_mono h' (view_le h) fun _ _ => id

theorem Step.diamond (h₁ : Step eager c c₁) (h₂ : Step eager c c₂) :
    c₁ = c₂ ∨ ∃ c', Step eager c₁ c' ∧ Step eager c₂ c' := by
  obtain ⟨r, p, hp, rfl⟩ := h₁
  obtain ⟨r', p', hp', rfl⟩ := h₂
  by_cases hr : r' = r
  · subst hr
    rw [hp] at hp'
    exact Or.inl (by rw [Option.some.inj hp'])
  · refine Or.inr ⟨Function.update (Function.update c r p) r' p',
      ⟨r', p', next_update hr hp hp', rfl⟩, r, p, next_update (Ne.symm hr) hp' hp, ?_⟩
    exact Function.update_comm (Ne.symm hr) p p' c

theorem Reach.confluent (h₁ : Reach eager c c₁) (h₂ : Reach eager c c₂) :
    ∃ c', Reach eager c₁ c' ∧ Reach eager c₂ c' := by
  refine Relation.church_rosser (fun a b d hb hd => ?_) h₁ h₂
  obtain rfl | ⟨e, hbe, hde⟩ := hb.diamond hd
  · exact ⟨b, .refl, .refl⟩
  · exact ⟨e, .single hbe, .single hde⟩

/-- Buffers do not take steps away. -/
theorem Step.mono (h : Step eager c c')
    (he : ∀ r d k, eager r d k = true → eager' r d k = true) : Step eager' c c' := by
  obtain ⟨r, p, hp, rfl⟩ := h
  exact ⟨r, p, Proc.next_mono hp ⟨fun _ => List.prefix_rfl, fun _ => le_rfl⟩ (he r), rfl⟩

theorem Reach.of_rendezvous (h : Reach rendezvous c c') (eager : ι → ι → ℕ → Bool) :
    Reach eager c c' :=
  Relation.ReflTransGen.mono (fun _ _ hstep => hstep.mono fun _ _ _ h => by cases h) _ _ h

theorem Done.not_step (h : Done c) (hstep : Step eager c c') : False := by
  obtain ⟨r, p, hp, -⟩ := hstep
  obtain ⟨op, htodo⟩ := Proc.next_todo hp
  rw [h r] at htodo
  cases htodo

theorem Done.eq_of_reach (h : Done c) (hreach : Reach eager c c') : c' = c := by
  obtain rfl | ⟨_, hstep, -⟩ := Relation.ReflTransGen.cases_head hreach
  · rfl
  · exact (h.not_step hstep).elim

end Steps

/-! ## Complete schedules -/

/-- However the steps follow each other and whatever is buffered, the processes come to the end
of their programs, and what they leave satisfies `post`. -/
structure Completes (c : ι → Proc ι μ σ) (post : (ι → Proc ι μ σ) → Prop) : Prop where
  /-- As long as a process has something left to do, some process can make a step. -/
  progress : ∀ eager c', Reach eager c c' → ¬ Done c' → ∃ c'', Step eager c' c''
  /-- No run goes on for ever. -/
  terminates : ∀ eager, ¬ ∃ run : ℕ → ι → Proc ι μ σ,
    run 0 = c ∧ ∀ n, Step eager (run n) (run (n + 1))
  result : ∀ eager c', Reach eager c c' → Done c' → post c'

section Completes

variable {eager : ι → ι → ℕ → Bool} {c c' cf : ι → Proc ι μ σ}
  {post : (ι → Proc ι μ σ) → Prop}

theorem Completes.mono {post' : (ι → Proc ι μ σ) → Prop} (h : Completes c post)
    (himp : ∀ c', post c' → post' c') : Completes c post' :=
  ⟨h.progress, h.terminates, fun eager c' hreach hdone => himp c' (h.result eager c' hreach hdone)⟩

/-- How much is left to do. -/
def remaining [Fintype ι] (c : ι → Proc ι μ σ) : ℕ := ∑ r, (c r).todo.length

theorem Step.remaining_lt [Fintype ι] (h : Step eager c c') : remaining c' < remaining c := by
  obtain ⟨r, p, hp, rfl⟩ := h
  obtain ⟨op, htodo⟩ := Proc.next_todo hp
  refine Finset.sum_lt_sum (fun s _ => ?_) ⟨r, Finset.mem_univ r, ?_⟩
  · rw [Function.update_apply]
    split
    · next heq =>
      rw [heq, htodo]
      exact Nat.le_succ _
    · exact le_rfl
  · rw [Function.update_self, htodo]
    exact Nat.lt_succ_self _

/-- One complete schedule without buffers decides for all. -/
theorem completes_of_reach [Fintype ι] (hrun : Reach rendezvous c cf) (hdone : Done cf)
    (hpost : post cf) : Completes c post := by
  have hback : ∀ eager c', Reach eager c c' → Reach eager c' cf := by
    intro eager c' hreach
    obtain ⟨d, hd, hfd⟩ := hreach.confluent (hrun.of_rendezvous eager)
    rwa [hdone.eq_of_reach hfd] at hd
  refine ⟨fun eager c' hreach hnot => ?_, fun eager ⟨run, hzero, hsteps⟩ => ?_,
    fun eager c' hreach hdone' => ?_⟩
  · obtain rfl | ⟨c'', hstep, -⟩ := Relation.ReflTransGen.cases_head (hback eager c' hreach)
    · exact absurd hdone hnot
    · exact ⟨c'', hstep⟩
  · have hdecreasing : ∀ n, remaining (run n) + n ≤ remaining (run 0) := by
      intro n
      induction n with
      | zero => exact le_rfl
      | succ n ih =>
        have hlt := (hsteps n).remaining_lt
        omega
    have hbound := hdecreasing (remaining (run 0) + 1)
    omega
  · rwa [← hdone'.eq_of_reach (hback eager c' hreach)]

end Completes

/-! ## Two processes -/

/-- The processes `r` and `s` are at `p` and `q`. -/
def pair (r s : ι) (p q : Proc ι μ σ) (c : ι → Proc ι μ σ) : ι → Proc ι μ σ :=
  Function.update (Function.update c r p) s q

/-- Each has started a receive for every send of the other. -/
structure Aligned (r s : ι) (p q : Proc ι μ σ) : Prop where
  left : p.posted s = (q.sent r).length
  right : q.posted r = (p.sent s).length

section Pair

variable {eager : ι → ι → ℕ → Bool} {r s : ι} {p p' q q' : Proc ι μ σ}
  {c c₀ : ι → Proc ι μ σ}

theorem pair_comm (hne : r ≠ s) : pair r s p q c = pair s r q p c :=
  Function.update_comm hne ..

theorem pair_left (hne : r ≠ s) : pair r s p q c r = p := by
  rw [pair, Function.update_of_ne hne, Function.update_self]

theorem pair_right : pair r s p q c s = q := Function.update_self ..

theorem pair_of_ne {t : ι} (hr : t ≠ r) (hs : t ≠ s) : pair r s p q c t = c t := by
  rw [pair, Function.update_of_ne hs, Function.update_of_ne hr]

theorem pair_eq_self : pair r s (c r) (c s) c = c := by
  rw [pair, Function.update_eq_self, Function.update_eq_self]

omit [DecidableEq ι] in
theorem Aligned.symm (h : Aligned r s p q) : Aligned s r q p := ⟨h.right, h.left⟩

/-- What `r` sees of `s`. -/
theorem view_pair :
    (view (pair r s p q c) r).sent s = q.sent r ∧
      (view (pair r s p q c) r).posted s = q.posted r := by
  simp only [view, pair_right, and_self]

theorem Reach.left (h : Reach eager c₀ (pair r s p q c)) (hne : r ≠ s)
    (hnext : p.next (eager r) (view (pair r s p q c) r) = some p') :
    Reach eager c₀ (pair r s p' q c) := by
  refine h.tail ⟨r, p', ?_, ?_⟩
  · rwa [pair_left hne]
  · funext t
    by_cases hr : t = r
    · rw [hr, pair_left hne, Function.update_self]
    · simp only [pair, Function.update_apply, hr, if_false]

theorem Reach.right (h : Reach eager c₀ (pair r s p q c)) (hne : r ≠ s)
    (hnext : q.next (eager s) (view (pair r s p q c) s) = some q') :
    Reach eager c₀ (pair r s p q' c) := by
  rw [pair_comm hne] at h hnext ⊢
  exact h.left (Ne.symm hne) hnext

/-- The steps of a process that sees what `s` has started for it: the messages `l` and `k`
receives. -/
def Runs (s : ι) (l : List μ) (k : ℕ) : Proc ι μ σ → Proc ι μ σ → Prop :=
  Relation.ReflTransGen fun p p' => ∀ eager v, v.sent s = l → v.posted s = k →
    p.next eager v = some p'

theorem Reach.left_runs (h : Reach eager c₀ (pair r s p q c)) (hne : r ≠ s)
    (hrun : Runs s (q.sent r) (q.posted r) p p') : Reach eager c₀ (pair r s p' q c) := by
  induction hrun with
  | refl => exact h
  | tail _ hstep ih => exact ih.left hne (hstep _ _ view_pair.1 view_pair.2)

theorem Reach.right_runs (h : Reach eager c₀ (pair r s p q c)) (hne : r ≠ s)
    (hrun : Runs r (p.sent s) (p.posted s) q q') : Reach eager c₀ (pair r s p q' c) := by
  rw [pair_comm hne] at h ⊢
  exact h.left_runs (Ne.symm hne) hrun

/-! ### The operations -/

variable {l : List μ} {k : ℕ} {rest restp restq : List (Op ι μ σ)} {msg msg' : σ → μ}
  {store store' : μ → σ → σ} {req : ℕ}

theorem Runs.compute {f : σ → σ} (h : p.todo = .compute f :: rest) :
    Runs s l k p { p with todo := rest, mem := f p.mem } :=
  .single fun _ _ _ _ => by rw [Proc.next, h]

theorem Runs.isend (h : p.todo = .isend s msg req :: rest) :
    Runs s l k p (p.isend s msg req) :=
  .single fun _ _ _ _ => by rw [Proc.next, h]

theorem Runs.irecv (h : p.todo = .irecv s store req :: rest) :
    Runs s l k p (p.irecv s store req) :=
  .single fun _ _ _ _ => by rw [Proc.next, h]

/-- A send is completed when its receive has been started. -/
theorem Runs.wait_send {n : ℕ} (h : p.todo = .waitall [req] :: rest)
    (hreq : p.reqs req = some (.send s n)) (hn : n < k) :
    Runs s l k p { p with todo := rest, reqs := Function.update p.reqs req none } := by
  refine .single fun eager v _ hposted => ?_
  have hwait : p.CanWait eager v [req] := by
    simp [Proc.CanWait, hreq, Request.Complete, hposted, hn]
  rw [Proc.next, h]
  simp only [hwait, if_true, Proc.waitall, h, List.tail_cons, List.mem_singleton,
    List.filterMap_cons, hreq, List.filterMap_nil, List.foldl_cons, List.foldl_nil, Request.store]
  congr 2
  funext j
  rw [Function.update_apply]

/-- A receive is completed when its message has been sent. -/
theorem Runs.wait_recv {n : ℕ} {m : μ} (h : p.todo = .waitall [req] :: rest)
    (hreq : p.reqs req = some (.recv s n store)) (hm : l[n]? = some m) :
    Runs s l k p { p with
      todo := rest, mem := store m p.mem, reqs := Function.update p.reqs req none } := by
  refine .single fun eager v hsent _ => ?_
  have hwait : p.CanWait eager v [req] := by
    simp [Proc.CanWait, hreq, Request.Complete, hsent, (List.getElem?_eq_some_iff.mp hm).1]
  rw [Proc.next, h]
  simp only [hwait, if_true, Proc.waitall, h, List.tail_cons, List.mem_singleton,
    List.filterMap_cons, hreq, List.filterMap_nil, List.foldl_cons, List.foldl_nil, Request.store,
    hsent, hm]
  congr 2
  funext j
  rw [Function.update_apply]

/-- A send and a receive are completed together. -/
theorem Runs.wait_both {a b n n' : ℕ} {m : μ} (h : p.todo = .waitall [a, b] :: rest)
    (ha : p.reqs a = some (.send s n)) (hb : p.reqs b = some (.recv s n' store)) (hn : n < k)
    (hm : l[n']? = some m) : Runs s l k p { p with
      todo := rest
      mem := store m p.mem
      reqs := fun req => if req ∈ [a, b] then none else p.reqs req } := by
  refine .single fun eager v hsent hposted => ?_
  have hwait : p.CanWait eager v [a, b] := by
    simp [Proc.CanWait, ha, hb, Request.Complete, hsent, hposted, hn,
      (List.getElem?_eq_some_iff.mp hm).1]
  rw [Proc.next, h]
  simp only [hwait, if_true, Proc.waitall, h, List.tail_cons, List.filterMap_cons, ha, hb,
    List.filterMap_nil, List.foldl_cons, List.foldl_nil, Request.store, hsent, hm]

end Pair

end Requests
