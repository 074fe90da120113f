import ReproMPI.Lib.Requests

/-!
# Sessions of two processes

A session is a piece of the programs of two processes in which they communicate with each other
only, and come to the end of it with what `eff` makes of their memories. Sessions are composed
from sends that meet receives; a list of sessions with one process in all of them is complete
when its sessions are.
-/

namespace Requests

variable {ι μ σ κ : Type*} [DecidableEq ι]

/-- The process has started sends to `s` and receives from `s` only. -/
def OnlyWith (s : ι) (p p' : Proc ι μ σ) : Prop :=
  ∀ t, t ≠ s → p'.sent t = p.sent t ∧ p'.posted t = p.posted t

/-- The processes `r` and `s` have come from `p` and `q` to `p'` and `q'`. -/
structure Outcome (r s : ι) (restp restq : List (Op ι μ σ)) (mems : σ × σ)
    (p q p' q' : Proc ι μ σ) : Prop where
  aligned : Aligned r s p' q'
  left_todo : p'.todo = restp
  right_todo : q'.todo = restq
  left_mem : p'.mem = mems.1
  right_mem : q'.mem = mems.2
  left_only : OnlyWith s p p'
  right_only : OnlyWith r q q'

/-- No send has to be buffered for the two programs. -/
def Session (r s : ι) (left right : List (Op ι μ σ)) (eff : σ × σ → σ × σ) : Prop :=
  ∀ (c : ι → Proc ι μ σ) (p q : Proc ι μ σ) restp restq, Aligned r s p q →
    p.todo = left ++ restp → q.todo = right ++ restq → ∃ p' q',
      Reach rendezvous (pair r s p q c) (pair r s p' q' c) ∧
      Outcome r s restp restq (eff (p.mem, q.mem)) p q p' q'

section Rules

variable {r s : ι} {left left' right right' restp restq : List (Op ι μ σ)}
  {eff eff' : σ × σ → σ × σ} {mems : σ × σ} {p p' q q' p'' : Proc ι μ σ}

omit [DecidableEq ι] in
theorem OnlyWith.refl (s : ι) (p : Proc ι μ σ) : OnlyWith s p p := fun _ _ => ⟨rfl, rfl⟩

omit [DecidableEq ι] in
theorem OnlyWith.trans (h : OnlyWith s p p') (h' : OnlyWith s p' p'') : OnlyWith s p p'' :=
  fun t ht => ⟨(h' t ht).1.trans (h t ht).1, (h' t ht).2.trans (h t ht).2⟩

theorem OnlyWith.isend (msg : σ → μ) (req : ℕ) : OnlyWith s p (p.isend s msg req) :=
  fun _ ht => ⟨Function.update_of_ne ht .., rfl⟩

theorem OnlyWith.irecv (store : μ → σ → σ) (req : ℕ) : OnlyWith s p (p.irecv s store req) :=
  fun _ ht => ⟨rfl, Function.update_of_ne ht ..⟩

omit [DecidableEq ι] in
theorem Outcome.symm (h : Outcome r s restp restq mems p q p' q') :
    Outcome s r restq restp mems.swap q p q' p' :=
  ⟨h.aligned.symm, h.right_todo, h.left_todo, h.right_mem, h.left_mem, h.right_only, h.left_only⟩

/-- The same session, seen from the other process. -/
theorem Session.symm (hne : r ≠ s) (h : Session r s left right eff) :
    Session s r right left fun mems => (eff mems.swap).swap := by
  intro c q p restq restp haligned hq hp
  obtain ⟨p', q', hreach, hout⟩ := h c p q restp restq haligned.symm hp hq
  rw [pair_comm hne, pair_comm hne] at hreach
  exact ⟨q', p', hreach, hout.symm⟩

theorem Session.nil : Session r s ([] : List (Op ι μ σ)) [] id :=
  fun _ p q _ _ haligned hp hq =>
    ⟨p, q, .refl, haligned, hp, hq, rfl, rfl, .refl s p, .refl r q⟩

/-- One session after another. -/
theorem Session.append (h : Session r s left right eff) (h' : Session r s left' right' eff') :
    Session r s (left ++ left') (right ++ right') (eff' ∘ eff) := by
  intro c p q restp restq haligned hp hq
  rw [List.append_assoc] at hp hq
  obtain ⟨p₁, q₁, hreach, hout⟩ := h c p q _ _ haligned hp hq
  obtain ⟨p', q', hreach', hout'⟩ :=
    h' c p₁ q₁ restp restq hout.aligned hout.left_todo hout.right_todo
  have hmems : (p₁.mem, q₁.mem) = eff (p.mem, q.mem) := Prod.ext hout.left_mem hout.right_mem
  rw [hmems] at hout'
  exact ⟨p', q', hreach.trans hreach', { hout' with
    left_only := hout.left_only.trans hout'.left_only
    right_only := hout.right_only.trans hout'.right_only }⟩

/-- A list of sessions of the two processes. -/
theorem Session.flatMap {ks : List κ} {left right : κ → List (Op ι μ σ)}
    {eff : κ → σ × σ → σ × σ} (h : ∀ k ∈ ks, Session r s (left k) (right k) (eff k)) :
    Session r s (ks.flatMap left) (ks.flatMap right)
      fun mems => ks.foldl (fun mems k => eff k mems) mems := by
  induction ks with
  | nil => exact .nil
  | cons k ks ih =>
    rw [List.flatMap_cons, List.flatMap_cons]
    exact (h k List.mem_cons_self).append (ih fun j hj => h j (List.mem_cons_of_mem _ hj))

theorem Session.compute (hne : r ≠ s) (f : σ → σ) :
    Session r s ([.compute f] : List (Op ι μ σ)) [] fun mems => (f mems.1, mems.2) := by
  intro c p q restp restq haligned hp hq
  have hreach : Reach rendezvous (pair r s p q c) (pair r s p q c) := .refl
  exact ⟨_, q, hreach.left_runs hne (.compute hp), ⟨haligned.left, haligned.right⟩, rfl, hq, rfl,
    rfl, fun _ _ => ⟨rfl, rfl⟩, .refl r q⟩

theorem Session.compute_both (hne : r ≠ s) (f g : σ → σ) :
    Session r s ([.compute f] : List (Op ι μ σ)) [.compute g]
      fun mems => (f mems.1, g mems.2) :=
  (Session.compute hne f).append ((Session.compute hne.symm g).symm hne.symm)

/-- The send of one process and the receive of the other. -/
theorem Session.transfer (hne : r ≠ s) (msg : σ → μ) (store : μ → σ → σ) :
    Session r s (Op.send s msg) (Op.recv r store)
      fun mems => (mems.1, store (msg mems.1) mems.2) := by
  intro c p q restp restq haligned hp hq
  have hreach : Reach rendezvous (pair r s p q c) (pair r s p q c) := .refl
  have hreach := (hreach.left_runs hne (.isend hp)).right_runs hne (.irecv hq)
  -- the receive has been started, and the message is there
  have hptodo : (p.isend s msg 0).todo = .waitall [0] :: restp := by
    rw [Proc.isend_todo, hp]
    rfl
  have hposted : (p.sent s).length < (q.irecv r store 1).posted r := by
    rw [Proc.irecv_posted, haligned.right]
    exact Nat.lt_succ_self _
  have hqtodo : (q.irecv r store 1).todo = .waitall [1] :: restq := by
    rw [Proc.irecv_todo, hq]
    rfl
  have hsent : ((p.isend s msg 0).sent s)[q.posted r]? = some (msg p.mem) := by
    rw [Proc.isend_sent, haligned.right, List.getElem?_concat_length]
  have hreach := hreach.left_runs hne (.wait_send hptodo Proc.isend_reqs hposted)
  have hreach := hreach.right_runs hne (.wait_recv hqtodo Proc.irecv_reqs hsent)
  have hponly : OnlyWith s p (p.isend s msg 0) := .isend msg 0
  have hqonly : OnlyWith r q (q.irecv r store 1) := .irecv store 1
  refine ⟨_, _, hreach, ⟨haligned.left, ?_⟩, rfl, rfl, rfl, rfl, hponly, hqonly⟩
  simp only [Proc.irecv_posted, Proc.isend_sent, haligned.right, List.length_append,
    List.length_singleton]

/-- A message and its answer. -/
theorem Session.roundTrip (hne : r ≠ s) (msg msg' : σ → μ) (store store' : μ → σ → σ)
    (f : σ → σ) :
    Session r s (Op.send s msg ++ Op.recv s store')
      (Op.recv r store ++ .compute f :: Op.send r msg') fun mems =>
        let answer := f (store (msg mems.1) mems.2)
        (store' (msg' answer) mems.1, answer) :=
  (Session.transfer hne msg store).append
    (((Session.compute hne.symm f).symm hne.symm).append
      ((Session.transfer hne.symm msg' store').symm hne.symm))

end Rules

/-! ## A send and a receive at the same time -/

section StartsBoth

variable {r s : ι} {left right rest : List (Op ι μ σ)} {p : Proc ι μ σ} {msg msg' : σ → μ}
  {store store' : μ → σ → σ} {a b : ℕ}

/-- A process starts a send to `s` and a receive from it before it waits for anything, and then
waits for both. -/
def StartsBoth (s : ι) (msg : σ → μ) (store : μ → σ → σ) (rest : List (Op ι μ σ))
    (p : Proc ι μ σ) : Prop :=
  ∃ p₁ : Proc ι μ σ, (∀ l k, Runs s l k p p₁) ∧ OnlyWith s p p₁ ∧
    p₁.sent s = p.sent s ++ [msg p.mem] ∧ p₁.posted s = p.posted s + 1 ∧
    ∀ l k m, (p.sent s).length < k → l[p.posted s]? = some m →
      ∃ p', Runs s l k p₁ p' ∧ p'.todo = rest ∧ p'.mem = store m p.mem ∧
        p'.sent = p₁.sent ∧ p'.posted = p₁.posted

/-- A nonblocking send and receive and one wait. -/
theorem startsBoth_of_waitall (hab : a ≠ b) (h : p.todo =
    .isend s msg a :: .irecv s store b :: .waitall [a, b] :: rest) :
    StartsBoth s msg store rest p := by
  have htodo : (p.isend s msg a).todo = .irecv s store b :: .waitall [a, b] :: rest := by
    rw [Proc.isend_todo, h, List.tail_cons]
  refine ⟨(p.isend s msg a).irecv s store b, fun l k => (Runs.isend h).trans (Runs.irecv htodo),
    (OnlyWith.isend msg a).trans (.irecv store b), by rw [Proc.irecv_sent, Proc.isend_sent],
    by rw [Proc.irecv_posted, Proc.isend_posted], fun l k m hk hm => ?_⟩
  have hwaits : ((p.isend s msg a).irecv s store b).todo = .waitall [a, b] :: rest := by
    rw [Proc.irecv_todo, htodo, List.tail_cons]
  have hsend : ((p.isend s msg a).irecv s store b).reqs a = some (.send s (p.sent s).length) := by
    rw [Proc.irecv_reqs_of_ne hab, Proc.isend_reqs]
  exact ⟨_, .wait_both hwaits hsend Proc.irecv_reqs hk hm, rfl, rfl, rfl, rfl⟩

/-- A nonblocking send and a blocking receive. -/
theorem startsBoth_of_recv (hab : a ≠ b) (h : p.todo =
    .isend s msg a :: .irecv s store b :: .waitall [b] :: .waitall [a] :: rest) :
    StartsBoth s msg store rest p := by
  have htodo : (p.isend s msg a).todo =
      .irecv s store b :: .waitall [b] :: .waitall [a] :: rest := by
    rw [Proc.isend_todo, h, List.tail_cons]
  refine ⟨(p.isend s msg a).irecv s store b, fun l k => (Runs.isend h).trans (Runs.irecv htodo),
    (OnlyWith.isend msg a).trans (.irecv store b), by rw [Proc.irecv_sent, Proc.isend_sent],
    by rw [Proc.irecv_posted, Proc.isend_posted], fun l k m hk hm => ?_⟩
  have hwaits : ((p.isend s msg a).irecv s store b).todo =
      .waitall [b] :: .waitall [a] :: rest := by
    rw [Proc.irecv_todo, htodo, List.tail_cons]
  have hsend : ((p.isend s msg a).irecv s store b).reqs a = some (.send s (p.sent s).length) := by
    rw [Proc.irecv_reqs_of_ne hab, Proc.isend_reqs]
  refine ⟨_, (Runs.wait_recv hwaits Proc.irecv_reqs hm).trans (Runs.wait_send rfl ?_ hk),
    rfl, rfl, rfl, rfl⟩
  exact (Function.update_of_ne hab ..).trans hsend

/-- A nonblocking receive and a blocking send. -/
theorem startsBoth_of_send (hab : a ≠ b) (h : p.todo =
    .irecv s store b :: .isend s msg a :: .waitall [a] :: .waitall [b] :: rest) :
    StartsBoth s msg store rest p := by
  have htodo : (p.irecv s store b).todo =
      .isend s msg a :: .waitall [a] :: .waitall [b] :: rest := by
    rw [Proc.irecv_todo, h, List.tail_cons]
  refine ⟨(p.irecv s store b).isend s msg a, fun l k => (Runs.irecv h).trans (Runs.isend htodo),
    (OnlyWith.irecv store b).trans (.isend msg a),
    by rw [Proc.isend_sent, Proc.irecv_sent, Proc.irecv_mem],
    by rw [Proc.isend_posted, Proc.irecv_posted], fun l k m hk hm => ?_⟩
  have hwaits : ((p.irecv s store b).isend s msg a).todo =
      .waitall [a] :: .waitall [b] :: rest := by
    rw [Proc.isend_todo, htodo, List.tail_cons]
  have hrecv : ((p.irecv s store b).isend s msg a).reqs b =
      some (.recv s (p.posted s) store) := by
    rw [Proc.isend_reqs_of_ne (Ne.symm hab), Proc.irecv_reqs]
  refine ⟨_, (Runs.wait_send hwaits Proc.isend_reqs hk).trans (Runs.wait_recv rfl ?_ hm),
    rfl, rfl, rfl, rfl⟩
  exact (Function.update_of_ne (Ne.symm hab) ..).trans hrecv

/-- When both processes start both. -/
theorem Session.exchange (hne : r ≠ s)
    (hleft : ∀ p rest, p.todo = left ++ rest → StartsBoth s msg store rest p)
    (hright : ∀ q rest, q.todo = right ++ rest → StartsBoth r msg' store' rest q) :
    Session r s left right
      fun mems => (store (msg' mems.2) mems.1, store' (msg mems.1) mems.2) := by
  intro c p q restp restq haligned hp hq
  obtain ⟨p₁, hpruns, hponly, hpsent, hpposted, hpwaits⟩ := hleft p restp hp
  obtain ⟨q₁, hqruns, hqonly, hqsent, hqposted, hqwaits⟩ := hright q restq hq
  have hreach : Reach rendezvous (pair r s p q c) (pair r s p q c) := .refl
  have hreach := (hreach.left_runs hne (hpruns _ _)).right_runs hne (hqruns _ _)
  -- now each sees the send and the receive of the other
  obtain ⟨p', hprun, hptodo, hpmem, hpsent', hpposted'⟩ :=
    hpwaits (q₁.sent r) (q₁.posted r) (msg' q.mem)
      (by rw [hqposted, haligned.right]; exact Nat.lt_succ_self _)
      (by rw [hqsent, haligned.left, List.getElem?_concat_length])
  have hreach := hreach.left_runs hne hprun
  obtain ⟨q', hqrun, hqtodo, hqmem, hqsent', hqposted'⟩ :=
    hqwaits (p'.sent s) (p'.posted s) (msg p.mem)
      (by rw [hpposted', hpposted, haligned.left]; exact Nat.lt_succ_self _)
      (by rw [hpsent', hpsent, haligned.right, List.getElem?_concat_length])
  have hreach := hreach.right_runs hne hqrun
  refine ⟨p', q', hreach, ⟨?_, ?_⟩, hptodo, hqtodo, hpmem, hqmem, ?_, ?_⟩
  · simp only [hpposted', hpposted, hqsent', hqsent, haligned.left, List.length_append,
      List.length_singleton]
  · simp only [hqposted', hqposted, hpsent', hpsent, haligned.right, List.length_append,
      List.length_singleton]
  · intro t ht
    rw [hpsent', hpposted']
    exact hponly t ht
  · intro t ht
    rw [hqsent', hqposted']
    exact hqonly t ht

end StartsBoth

/-! ## Processes that take no part -/

/-- The process neither sends nor receives. -/
def Silent (p : Proc ι μ σ) : Prop := ∀ op ∈ p.todo, ∃ f, op = .compute f

section Silent

variable {eager : ι → ι → ℕ → Bool} {r : ι} {c : ι → Proc ι μ σ}

theorem Silent.reach (h : Silent (c r)) : ∃ p, p.todo = [] ∧
    Reach eager c (Function.update c r p) := by
  generalize htodo : (c r).todo = todo
  induction todo generalizing c with
  | nil => exact ⟨c r, htodo, by rw [Function.update_eq_self]; exact .refl⟩
  | cons op rest ih =>
    obtain ⟨f, rfl⟩ := h op (htodo ▸ List.mem_cons_self)
    let p : Proc ι μ σ := { c r with todo := rest, mem := f (c r).mem }
    have hstep : Step eager c (Function.update c r p) :=
      ⟨r, p, by rw [Proc.next, htodo], rfl⟩
    have hsilent : Silent (Function.update c r p r) := by
      rw [Function.update_self]
      exact fun op hop => h op (htodo ▸ List.mem_cons_of_mem _ hop)
    obtain ⟨p', hdone, hreach⟩ := ih hsilent (by rw [Function.update_self])
    rw [Function.update_idem] at hreach
    exact ⟨p', hdone, .head hstep hreach⟩

/-- All silent processes of a list come to their end, and the others do not see it. -/
theorem silent_reach {rs : List ι} (h : ∀ r ∈ rs, Silent (c r)) : ∃ c', Reach eager c c' ∧
    (∀ r ∈ rs, (c' r).todo = []) ∧ ∀ r ∉ rs, c' r = c r := by
  induction rs generalizing c with
  | nil => exact ⟨c, .refl, by simp, fun _ _ => rfl⟩
  | cons r rs ih =>
    obtain ⟨p, hdone, hreach⟩ : ∃ p, p.todo = [] ∧ Reach eager c (Function.update c r p) :=
      (h r List.mem_cons_self).reach
    have hsilent : ∀ s ∈ rs, Silent (Function.update c r p s) := by
      intro s hs
      rw [Function.update_apply]
      split
      · exact fun op hop => by simp [hdone] at hop
      · exact h s (List.mem_cons_of_mem _ hs)
    obtain ⟨c', hreach', hdone', hothers⟩ := ih hsilent
    refine ⟨c', hreach.trans hreach', fun s hs => ?_, fun s hs => ?_⟩
    · by_cases hmem : s ∈ rs
      · exact hdone' s hmem
      · obtain rfl : s = r := (List.mem_cons.mp hs).resolve_right hmem
        rw [hothers s hmem, Function.update_self, hdone]
    · obtain ⟨hne, hnot⟩ := not_or.mp (mt List.mem_cons.mpr hs)
      rw [hothers s hnot, Function.update_of_ne hne]

end Silent

/-! ## Complete programs -/

section Complete

variable {r s : ι} {left right : List (Op ι μ σ)} {eff : σ × σ → σ × σ}
  {c : ι → Proc ι μ σ}

/-- A session of two processes, while the others take no part in anything. -/
theorem Session.completes [Fintype ι] (h : Session r s left right eff) (hne : r ≠ s)
    (haligned : Aligned r s (c r) (c s)) (hleft : (c r).todo = left) (hright : (c s).todo = right)
    (hsilent : ∀ t, t ≠ r → t ≠ s → Silent (c t)) :
    Completes c fun c' => Aligned r s (c' r) (c' s) ∧
      ((c' r).mem, (c' s).mem) = eff ((c r).mem, (c s).mem) := by
  let others := Finset.univ.toList.filter fun t => t ≠ r ∧ t ≠ s
  have hmem : ∀ {t}, t ∈ others ↔ t ≠ r ∧ t ≠ s := by
    intro t
    simp [others]
  obtain ⟨c₁, hothers, hdone, hkept⟩ : ∃ c₁, Reach rendezvous c c₁ ∧
      (∀ t ∈ others, (c₁ t).todo = []) ∧ ∀ t ∉ others, c₁ t = c t :=
    silent_reach fun t ht => hsilent t (hmem.mp ht).1 (hmem.mp ht).2
  have hr := hkept r fun ht => (hmem.mp ht).1 rfl
  have hs := hkept s fun ht => (hmem.mp ht).2 rfl
  obtain ⟨p', q', hsession, hout⟩ := h c₁ (c₁ r) (c₁ s) [] [] (by rwa [hr, hs])
    (by rw [hr, hleft, List.append_nil]) (by rw [hs, hright, List.append_nil])
  rw [pair_eq_self] at hsession
  refine completes_of_reach (hothers.trans hsession) (fun t => ?_) ⟨?_, ?_⟩
  · by_cases htr : t = r
    · rw [htr, pair_left hne, hout.left_todo]
    · by_cases hts : t = s
      · rw [hts, pair_right, hout.right_todo]
      · rw [pair_of_ne htr hts]
        exact hdone t (hmem.mpr ⟨htr, hts⟩)
  · rw [pair_left hne, pair_right]
    exact hout.aligned
  · rw [pair_left hne, pair_right, hout.left_mem, hout.right_mem, hr, hs]

end Complete

section Star

variable {master : ι} {peer : κ → ι} {left right : κ → List (Op ι μ σ)}
  {eff : κ → σ × σ → σ × σ} {c : ι → Proc ι μ σ}

/-- What a session of the master with `peer k` makes of the memories. -/
def starEffect (master : ι) (peer : κ → ι) (eff : κ → σ × σ → σ × σ) (mems : ι → σ) (k : κ) :
    ι → σ :=
  let out := eff k (mems master, mems (peer k))
  Function.update (Function.update mems master out.1) (peer k) out.2

theorem starEffect_master {k : κ} {mems : ι → σ} (h : master ≠ peer k) :
    starEffect master peer eff mems k master = (eff k (mems master, mems (peer k))).1 := by
  rw [starEffect, Function.update_of_ne h, Function.update_self]

/-- The sessions of the master, one after another, and on each other process those with it. -/
theorem star_reach {ks : List κ} (hpeer : ∀ k ∈ ks, master ≠ peer k)
    (h : ∀ k ∈ ks, Session master (peer k) (left k) (right k) (eff k))
    (haligned : ∀ r, r ≠ master → Aligned master r (c master) (c r))
    (hmaster : (c master).todo = ks.flatMap left)
    (hpeers : ∀ r, r ≠ master →
      (c r).todo = ks.flatMap fun k => if peer k = r then right k else []) :
    ∃ c', Reach rendezvous c c' ∧ Done c' ∧
      (fun r => (c' r).mem) = ks.foldl (starEffect master peer eff) fun r => (c r).mem := by
  induction ks generalizing c with
  | nil =>
    refine ⟨c, .refl, fun r => ?_, rfl⟩
    by_cases hr : r = master
    · rw [hr, hmaster, List.flatMap_nil]
    · rw [hpeers r hr, List.flatMap_nil]
  | cons k ks ih =>
    have hne := hpeer k List.mem_cons_self
    have hright := hpeers (peer k) hne.symm
    rw [List.flatMap_cons] at hmaster
    rw [List.flatMap_cons, if_pos rfl] at hright
    obtain ⟨p', q', hreach, hout⟩ := h k List.mem_cons_self c (c master) (c (peer k)) _ _
      (haligned _ hne.symm) hmaster hright
    rw [pair_eq_self] at hreach
    -- the other processes have not noticed the session
    have haligned' : ∀ r, r ≠ master → Aligned master r (pair master (peer k) p' q' c master)
        (pair master (peer k) p' q' c r) := by
      intro r hr
      rw [pair_left hne]
      by_cases hrk : r = peer k
      · rw [hrk, pair_right]
        exact hout.aligned
      · rw [pair_of_ne hr hrk]
        obtain ⟨hsent, hposted⟩ := hout.left_only r hrk
        exact ⟨hposted.trans (haligned r hr).left, (haligned r hr).right.trans (by rw [hsent])⟩
    have hmaster' : (pair master (peer k) p' q' c master).todo = ks.flatMap left := by
      rw [pair_left hne, hout.left_todo]
    have hpeers' : ∀ r, r ≠ master → (pair master (peer k) p' q' c r).todo =
        ks.flatMap fun k => if peer k = r then right k else [] := by
      intro r hr
      by_cases hrk : r = peer k
      · rw [hrk, pair_right, hout.right_todo]
      · rw [pair_of_ne hr hrk, hpeers r hr, List.flatMap_cons, if_neg (Ne.symm hrk),
          List.nil_append]
    have hmem : (fun r => (pair master (peer k) p' q' c r).mem) =
        starEffect master peer eff (fun r => (c r).mem) k := by
      funext r
      by_cases hrk : r = peer k
      · rw [hrk, pair_right, starEffect, Function.update_self, hout.right_mem]
      · rw [starEffect, Function.update_of_ne hrk]
        by_cases hr : r = master
        · rw [hr, pair_left hne, Function.update_self, hout.left_mem]
        · rw [pair_of_ne hr hrk, Function.update_of_ne hr]
    obtain ⟨c', hrest, hdone, hmems⟩ := ih (fun j hj => hpeer j (List.mem_cons_of_mem _ hj))
      (fun j hj => h j (List.mem_cons_of_mem _ hj)) haligned' hmaster' hpeers'
    rw [hmem] at hmems
    exact ⟨c', hreach.trans hrest, hdone, hmems⟩

end Star

end Requests
