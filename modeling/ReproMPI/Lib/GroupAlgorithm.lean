import ReproMPI.Lib.Communicator
import ReproMPI.Lib.GroupOps

/-!
# Algorithms of a communicator

An algorithm is started by all processes of a communicator, each with a value of its own, and
leaves each of them with a new value. Two algorithms can be executed one after the other, and
one algorithm can be executed by several groups of the processes; a process that is done with
the first one does not wait for the others. What the composed algorithm ensures follows from
what its parts ensure, in whatever order the operations take place.
-/

namespace GroupOps

open Communicator

universe u

variable {ι : Type u} [DecidableEq ι]

/-- The processes of a communicator exchange data to compute new values of type `D`. -/
structure Algorithm (ι : Type u) [DecidableEq ι] (D : Type u) where
  Event : Type u
  State : Type u
  system : Comm ι → System ι Event State
  /-- What process `r` takes part in, in order. -/
  program : Comm ι → ι → List Event
  /-- All operations, in an order that agrees with the programs. -/
  events : Comm ι → List Event
  start : Comm ι → ι → D → State
  result : State → D
  project_events : ∀ {comm : Comm ι} {r : ι}, r ∈ comm.members →
    (system comm).project (events comm) r = program comm r
  parties_ne_nil : ∀ {comm : Comm ι}, ∀ k ∈ events comm, (system comm).parties k ≠ []
  parties_mem : ∀ {comm : Comm ι}, ∀ k ∈ events comm, ∀ r ∈ (system comm).parties k,
    r ∈ comm.members

/-! ## Systems inside others -/

section Lifts

variable {κ κ' S S' : Type*}

/-- The operations `e k` do to states `f s` what the operations `k` do to the states `s`. -/
structure Lifts (sys : System ι κ S) (sys' : System ι κ' S') (e : κ → κ') (f : S → S') :
    Prop where
  injective : Function.Injective f
  parties : ∀ k, sys'.parties (e k) = sys.parties k
  effect : ∀ k σ out, sys'.effect (e k) σ out → ∃ τ τ', sys.effect k τ τ' ∧
    ∀ r ∈ sys.parties k, σ r = f (τ r) ∧ out r = f (τ' r)
  canOccur : ∀ k σ τ, sys.CanOccur k τ → (∀ r ∈ sys.parties k, σ r = f (τ r)) →
    sys'.CanOccur (e k) σ

variable {sys : System ι κ S} {sys' : System ι κ' S'} {e : κ → κ'} {f : S → S'}

/-- A lifted operation is the operation, as far as `rs` can see. -/
theorem Lifts.occurs (h : Lifts sys sys' e f) {rs : List ι} {k : κ} {σ σ' : ι → S'} {τ : ι → S}
    (hk : ∀ r ∈ sys.parties k, r ∈ rs) (hocc : sys'.Occurs (e k) σ σ')
    (hσ : ∀ r ∈ rs, σ r = f (τ r)) : ∃ τ', sys.Occurs k τ τ' ∧ ∀ r ∈ rs, σ' r = f (τ' r) := by
  obtain ⟨out, heffect, rfl⟩ := hocc
  obtain ⟨τ₁, τ₂, heffect, hagree⟩ := h.effect k σ out heffect
  have heffect : sys.effect k τ τ₂ := by
    refine sys.effect_congr (fun r hr => h.injective ?_) heffect
    rw [← (hagree r hr).1, hσ r (hk r hr)]
  refine ⟨overlay (sys.parties k) τ₂ τ, ⟨τ₂, heffect, rfl⟩, fun r hr => ?_⟩
  rw [h.parties k]
  by_cases hrk : r ∈ sys.parties k
  · rw [overlay_of_mem hrk, overlay_of_mem hrk, (hagree r hrk).2]
  · rw [overlay_of_not_mem hrk, overlay_of_not_mem hrk, hσ r hr]

/-- A run of lifted operations is a run of the operations, as far as `rs` can see. -/
theorem Lifts.run (h : Lifts sys sys' e f) {rs : List ι} {ks : List κ} {σ σ' : ι → S'}
    {τ : ι → S} (hks : ∀ k ∈ ks, ∀ r ∈ sys.parties k, r ∈ rs) (hrun : sys'.Run (ks.map e) σ σ')
    (hσ : ∀ r ∈ rs, σ r = f (τ r)) : ∃ τ', sys.Run ks τ τ' ∧ ∀ r ∈ rs, σ' r = f (τ' r) := by
  induction ks generalizing σ τ with
  | nil =>
    obtain _ | _ := hrun
    exact ⟨τ, .nil τ, hσ⟩
  | cons k ks ih =>
    obtain _ | ⟨hocc, hrest⟩ := hrun
    obtain ⟨τ₁, hτ₁, hσ₁⟩ := h.occurs (hks k List.mem_cons_self) hocc hσ
    obtain ⟨τ', hτ', hσ'⟩ := ih (fun j hj => hks j (List.mem_cons_of_mem _ hj)) hrest hσ₁
    exact ⟨τ', .cons hτ₁ hτ', hσ'⟩

/-- What the operations find, the lifted operations find. -/
theorem Lifts.always (h : Lifts sys sys' e f) {P : κ → (ι → S) → Prop}
    {P' : κ' → (ι → S') → Prop} {rs : List ι} {ks : List κ} {σ : ι → S'} {τ : ι → S}
    (hks : ∀ k ∈ ks, ∀ r ∈ sys.parties k, r ∈ rs)
    (hP : ∀ k ∈ ks, ∀ σ τ, (∀ r ∈ sys.parties k, σ r = f (τ r)) → P k τ → P' (e k) σ)
    (halways : sys.Always P ks τ) (hσ : ∀ r ∈ rs, σ r = f (τ r)) :
    sys'.Always P' (ks.map e) σ := by
  induction ks generalizing σ τ with
  | nil => trivial
  | cons k ks ih =>
    have hk := hks k List.mem_cons_self
    refine ⟨hP k List.mem_cons_self σ τ (fun r hr => hσ r (hk r hr)) halways.1, fun σ' hocc => ?_⟩
    obtain ⟨τ', hτ', hσ'⟩ := h.occurs hk hocc hσ
    exact ih (fun j hj => hks j (List.mem_cons_of_mem _ hj))
      (fun j hj => hP j (List.mem_cons_of_mem _ hj)) (halways.2 τ' hτ') hσ'

/-- A system inside itself. -/
theorem lifts_id (sys : System ι κ S) : Lifts sys sys id id where
  injective := Function.injective_id
  parties _ := rfl
  effect _ σ out h := ⟨σ, out, h, fun _ _ => ⟨rfl, rfl⟩⟩
  canOccur _ _ _ h hagree := (System.guard_canOccur sys).congr (fun r hr => (hagree r hr).symm) h

/-- A run from other states, as far as `rs` can see. -/
theorem System.Run.congr {rs : List ι} {ks : List κ} {σ σ' τ : ι → S} (hrun : sys.Run ks σ σ')
    (hks : ∀ k ∈ ks, ∀ r ∈ sys.parties k, r ∈ rs) (hσ : ∀ r ∈ rs, σ r = τ r) :
    ∃ τ', sys.Run ks τ τ' ∧ ∀ r ∈ rs, σ' r = τ' r :=
  (lifts_id sys).run hks (by rwa [List.map_id]) hσ

theorem System.Always.congr {P : κ → (ι → S) → Prop} (hP : sys.Guard P) {rs : List ι}
    {ks : List κ} {σ τ : ι → S} (h : sys.Always P ks σ)
    (hks : ∀ k ∈ ks, ∀ r ∈ sys.parties k, r ∈ rs) (hσ : ∀ r ∈ rs, σ r = τ r) :
    sys.Always P ks τ := by
  have hid := (lifts_id sys).always hks (fun k _ σ τ hagree hk =>
    hP.congr (fun r hr => (hagree r hr).symm) hk) h fun r hr => (hσ r hr).symm
  rwa [List.map_id] at hid

/-- Blocks of operations without a common process run as if each were alone. -/
theorem System.Run.blocks {β : Type*} {l : List β} {f : β → List κ} {rs : β → List ι}
    {σ σ' : ι → S} (hrun : sys.Run (l.flatMap f) σ σ') (hl : l.Nodup)
    (hparties : ∀ b ∈ l, ∀ k ∈ f b, ∀ r ∈ sys.parties k, r ∈ rs b)
    (hdisj : ∀ b ∈ l, ∀ b' ∈ l, ∀ r ∈ rs b, r ∈ rs b' → b = b') :
    ∀ b ∈ l, ∃ τ, sys.Run (f b) σ τ ∧ ∀ r ∈ rs b, σ' r = τ r := by
  induction l generalizing σ with
  | nil => simp
  | cons b l ih =>
    rw [List.flatMap_cons] at hrun
    obtain ⟨σ₁, hfirst, hrest⟩ := System.run_append_iff.mp hrun
    obtain ⟨hb, hl⟩ := List.nodup_cons.mp hl
    have hother : ∀ b' ∈ l, ∀ r ∈ rs b', r ∉ rs b := fun b' hb' r hr hmem =>
      hb (hdisj b List.mem_cons_self b' (List.mem_cons_of_mem _ hb') r hmem hr ▸ hb')
    intro b' hb'
    rcases List.mem_cons.mp hb' with rfl | hb'
    · refine ⟨σ₁, hfirst, fun r hr => hrest.frame fun k hk hmem => ?_⟩
      obtain ⟨b'', hb'', hk⟩ := List.mem_flatMap.mp hk
      exact hother b'' hb'' r (hparties b'' (List.mem_cons_of_mem _ hb'') k hk r hmem) hr
    · obtain ⟨τ, hτ, hσ'⟩ := ih hrest hl (fun a ha => hparties a (List.mem_cons_of_mem _ ha))
        (fun a ha a' ha' => hdisj a (List.mem_cons_of_mem _ ha) a' (List.mem_cons_of_mem _ ha'))
        b' hb'
      -- the block finds the states of its processes as they were before the first block
      obtain ⟨τ', hτ', hτ⟩ := hτ.congr (hparties b' (List.mem_cons_of_mem _ hb'))
        fun r hr => hfirst.frame fun k hk hmem =>
          hother b' hb' r hr (hparties b List.mem_cons_self k hk r hmem)
      exact ⟨τ', hτ', fun r hr => (hσ' r hr).trans (hτ r hr)⟩

/-- Blocks of operations without a common process find what each finds alone. -/
theorem System.Always.blocks {β : Type*} {P : κ → (ι → S) → Prop} (hP : sys.Guard P)
    {l : List β} {f : β → List κ} {rs : β → List ι} {σ : ι → S}
    (h : ∀ b ∈ l, sys.Always P (f b) σ) (hl : l.Nodup)
    (hparties : ∀ b ∈ l, ∀ k ∈ f b, ∀ r ∈ sys.parties k, r ∈ rs b)
    (hdisj : ∀ b ∈ l, ∀ b' ∈ l, ∀ r ∈ rs b, r ∈ rs b' → b = b') :
    sys.Always P (l.flatMap f) σ := by
  induction l generalizing σ with
  | nil => trivial
  | cons b l ih =>
    rw [List.flatMap_cons]
    obtain ⟨hb, hl⟩ := List.nodup_cons.mp hl
    refine System.always_append_iff.mpr ⟨h b List.mem_cons_self, fun σ₁ hrun => ih ?_ hl
      (fun a ha => hparties a (List.mem_cons_of_mem _ ha))
      fun a ha a' ha' => hdisj a (List.mem_cons_of_mem _ ha) a' (List.mem_cons_of_mem _ ha')⟩
    intro b' hb'
    have hmem := List.mem_cons_of_mem b hb'
    refine (h b' hmem).congr hP (hparties b' hmem) fun r hr =>
      (hrun.frame fun k hk hmem' => ?_).symm
    obtain rfl := hdisj b List.mem_cons_self b' hmem r
      (hparties b List.mem_cons_self k hk r hmem') hr
    exact hb hb'

/-- Lifted operations are seen by the same processes. -/
theorem Lifts.project (h : Lifts sys sys' e f) (ks : List κ) (r : ι) :
    sys'.project (ks.map e) r = (sys.project ks r).map e := by
  simp only [System.project, List.filter_map]
  congr 1
  refine List.filter_congr fun k _ => ?_
  simp only [Function.comp_apply, h.parties]

end Lifts

namespace Algorithm

variable {D : Type u} {A B : Algorithm ι D} {comm : Comm ι} {c c' : ι → D}

/-! ## Runs -/

/-- The processes before the first operation; `c r` is the value of process `r`. -/
def initial (A : Algorithm ι D) (comm : Comm ι) (c : ι → D) : System.Config ι A.Event A.State where
  todo r := if r ∈ comm.members then A.program comm r else []
  state r := A.start comm r (c r)

/-- The operations take place in any order. -/
def Reach (A : Algorithm ι D) (comm : Comm ι) (c : ι → D) :
    System.Config ι A.Event A.State → Prop :=
  (A.system comm).Reach (A.initial comm c)

/-- Executed operation after operation, the algorithm takes the values `c` to values with
`post`. -/
def Ensures (A : Algorithm ι D) (comm : Comm ι) (c : ι → D) (post : (ι → D) → Prop) : Prop :=
  ∀ σ', (A.system comm).Run (A.events comm) (fun r => A.start comm r (c r)) σ' →
    ∃ out, post out ∧ ∀ r ∈ comm.members, A.result (σ' r) = out r

theorem initial_todo (A : Algorithm ι D) (comm : Comm ι) (c : ι → D) (r : ι) :
    (A.initial comm c).todo r = (A.system comm).project (A.events comm) r := by
  simp only [initial]
  split
  · next hr => exact (A.project_events hr).symm
  · next hr =>
    exact (System.project_eq_nil fun k hk hmem => hr (A.parties_mem k hk r hmem)).symm

/-- Whatever the order of the operations: no run is infinite, some operation has all its
parties waiting for it until the programs are done, and then the values have `post`. -/
structure Achieves (A : Algorithm ι D) (comm : Comm ι) (c : ι → D) (post : (ι → D) → Prop) :
    Prop where
  finite : ¬ ∃ f : ℕ → System.Config ι A.Event A.State, f 0 = A.initial comm c ∧
    ∀ n, ∃ k, (A.system comm).Step (f n) k (f (n + 1))
  progress : ∀ s, A.Reach comm c s → (∃ r, s.todo r ≠ []) →
    ∃ k, (A.system comm).Ready s.todo k
  final : ∀ s, A.Reach comm c s → (∀ r, s.todo r = []) →
    ∃ out, post out ∧ ∀ r ∈ comm.members, A.result (s.state r) = out r

/-- What the algorithm ensures when it is executed operation after operation it achieves in
every order. -/
theorem Ensures.achieves {post : (ι → D) → Prop} (h : A.Ensures comm c post) :
    A.Achieves comm c post where
  finite := System.not_infinite (A.initial_todo comm c)
  progress _ hs hr := System.Reach.exists_ready hs A.parties_ne_nil (A.initial_todo comm c) hr
  final s hs hdone := h s.state (System.Reach.run hs A.parties_ne_nil (A.initial_todo comm c) hdone)

/-- Executed operation after operation, all operations find states with `P`. -/
def Finds (A : Algorithm ι D) (comm : Comm ι) (c : ι → D)
    (P : A.Event → (ι → A.State) → Prop) : Prop :=
  (A.system comm).Always P (A.events comm) fun r => A.start comm r (c r)

/-- Executed operation after operation, the algorithm does not get stuck. -/
def Enabled (A : Algorithm ι D) (comm : Comm ι) (c : ι → D) : Prop :=
  A.Finds comm c (A.system comm).CanOccur

/-- Whatever the order of the operations: those that have all their parties waiting for them can
take place, and until the programs are done there is one. -/
structure Proceeds (A : Algorithm ι D) (comm : Comm ι) (c : ι → D) : Prop where
  ready : ∀ s, A.Reach comm c s → ∀ k, (A.system comm).Ready s.todo k →
    ∃ s', (A.system comm).Step s k s'
  progress : ∀ s, A.Reach comm c s → (∃ r, s.todo r ≠ []) →
    ∃ k s', (A.system comm).Step s k s'

/-- What the operations find one after another they find in every order. -/
theorem Finds.ready {P : A.Event → (ι → A.State) → Prop} (h : A.Finds comm c P)
    (hP : (A.system comm).Guard P) {s : System.Config ι A.Event A.State} (hs : A.Reach comm c s)
    {k : A.Event} (hready : (A.system comm).Ready s.todo k) : P k s.state :=
  System.Reach.finds hP hs (A.initial_todo comm c) h hready

theorem Enabled.proceeds (h : A.Enabled comm c) : A.Proceeds comm c := by
  have hready : ∀ s, A.Reach comm c s → ∀ k, (A.system comm).Ready s.todo k →
      ∃ s', (A.system comm).Step s k s' := by
    intro s hs k hk
    obtain ⟨σ, hocc⟩ := Finds.ready h (System.guard_canOccur _) hs hk
    exact ⟨_, .mk hk hocc⟩
  refine ⟨hready, fun s hs hr => ?_⟩
  obtain ⟨k, hk⟩ := System.Reach.exists_ready hs A.parties_ne_nil (A.initial_todo comm c) hr
  exact ⟨k, hready s hs k hk⟩

/-- The values of other processes do not matter. -/
theorem Finds.congr {P : A.Event → (ι → A.State) → Prop} (hP : (A.system comm).Guard P)
    (h : A.Finds comm c P) (hc : ∀ r ∈ comm.members, c r = c' r) : A.Finds comm c' P :=
  System.Always.congr hP h A.parties_mem fun r hr => by rw [hc r hr]

/-- The values of other processes do not matter. -/
theorem Ensures.congr {post : (ι → D) → Prop} (h : A.Ensures comm c post)
    (hc : ∀ r ∈ comm.members, c' r = c r) : A.Ensures comm c' post := by
  intro σ' hrun
  have hstart : ∀ r ∈ comm.members, A.start comm r (c' r) = A.start comm r (c r) :=
    fun r hr => by rw [hc r hr]
  obtain ⟨τ', hτ', hagree⟩ := hrun.congr A.parties_mem hstart
  obtain ⟨out, hout, hresult⟩ := h τ' hτ'
  exact ⟨out, hout, fun r hr => by rw [hagree r hr, hresult r hr]⟩

theorem Ensures.mono {post post' : (ι → D) → Prop} (h : A.Ensures comm c post)
    (hpost : ∀ out, post out → post' out) : A.Ensures comm c post' := by
  intro σ' hrun
  obtain ⟨out, hout, hresult⟩ := h σ' hrun
  exact ⟨out, hpost out hout, hresult⟩

/-! ## One algorithm after another -/

inductive SeqEvent (ι κ κ' : Type u)
  | first (k : κ)
  /-- A process goes on with the second algorithm. -/
  | handover (r : ι)
  | second (k : κ')
  deriving DecidableEq

section Seq

/-- The operations of both algorithms. -/
def seqSystem (A B : Algorithm ι D) (comm : Comm ι) :
    System ι (SeqEvent ι A.Event B.Event) (A.State ⊕ B.State) where
  parties
    | .first k => (A.system comm).parties k
    | .handover r => [r]
    | .second k => (B.system comm).parties k
  effect
    | .first k, σ, out => ∃ τ τ', (A.system comm).effect k τ τ' ∧
        ∀ r ∈ (A.system comm).parties k, σ r = .inl (τ r) ∧ out r = .inl (τ' r)
    | .handover r, σ, out => ∃ s, σ r = .inl s ∧ out r = .inr (B.start comm r (A.result s))
    | .second k, σ, out => ∃ τ τ', (B.system comm).effect k τ τ' ∧
        ∀ r ∈ (B.system comm).parties k, σ r = .inr (τ r) ∧ out r = .inr (τ' r)
  effect_congr {k σ τ out} hagree h := by
    cases k with
    | first k =>
      obtain ⟨τ₁, τ₂, hk, hout⟩ := h
      exact ⟨τ₁, τ₂, hk, fun r hr => ⟨(hagree r hr).symm.trans (hout r hr).1, (hout r hr).2⟩⟩
    | handover r =>
      obtain ⟨s, hs, hout⟩ := h
      exact ⟨s, (hagree r (List.mem_singleton_self r)).symm.trans hs, hout⟩
    | second k =>
      obtain ⟨τ₁, τ₂, hk, hout⟩ := h
      exact ⟨τ₁, τ₂, hk, fun r hr => ⟨(hagree r hr).symm.trans (hout r hr).1, (hout r hr).2⟩⟩

theorem lifts_first (A B : Algorithm ι D) (comm : Comm ι) :
    Lifts (A.system comm) (seqSystem A B comm) .first .inl where
  injective := Sum.inl_injective
  parties _ := rfl
  effect _ _ _ h := h
  canOccur _ σ τ h hagree := by
    obtain ⟨out, hout⟩ := System.canOccur_iff.mp h
    exact System.canOccur_iff.mpr
      ⟨fun r => .inl (out r), τ, out, hout, fun r hr => ⟨hagree r hr, rfl⟩⟩

theorem lifts_second (A B : Algorithm ι D) (comm : Comm ι) :
    Lifts (B.system comm) (seqSystem A B comm) .second .inr where
  injective := Sum.inr_injective
  parties _ := rfl
  effect _ _ _ h := h
  canOccur _ σ τ h hagree := by
    obtain ⟨out, hout⟩ := System.canOccur_iff.mp h
    exact System.canOccur_iff.mpr
      ⟨fun r => .inr (out r), τ, out, hout, fun r hr => ⟨hagree r hr, rfl⟩⟩

theorem project_handover {l : List ι} (hnodup : l.Nodup) {r : ι} (hr : r ∈ l) :
    (seqSystem A B comm).project (l.map .handover) r = [.handover r] := by
  have hfilter : l.filter ((fun k => decide (r ∈ (seqSystem A B comm).parties k)) ∘ .handover) =
      l.filter (· == r) := by
    refine List.filter_congr fun p _ => ?_
    show decide (r ∈ [p]) = (p == r)
    rw [Bool.eq_iff_iff, decide_eq_true_iff, List.mem_singleton, beq_iff_eq]
    exact eq_comm
  rw [System.project, List.filter_map, hfilter, List.filter_beq,
    List.count_eq_one_of_mem hnodup hr]
  rfl

theorem mem_seqEvents {l : List A.Event} {l' : List B.Event} {k : SeqEvent ι A.Event B.Event} :
    k ∈ l.map .first ++ (comm.members.map .handover ++ l'.map .second) ↔
      (∃ j ∈ l, .first j = k) ∨ (∃ r ∈ comm.members, .handover r = k) ∨
        ∃ j ∈ l', .second j = k := by
  simp

/-- `A`, then `B`, each process at its own pace. -/
def seq (A B : Algorithm ι D) : Algorithm ι D where
  Event := SeqEvent ι A.Event B.Event
  State := A.State ⊕ B.State
  system := seqSystem A B
  program comm r :=
    (A.program comm r).map .first ++ .handover r :: (B.program comm r).map .second
  events comm :=
    (A.events comm).map .first ++ (comm.members.map .handover ++ (B.events comm).map .second)
  start comm r d := .inl (A.start comm r d)
  result
    | .inl s => A.result s
    | .inr s => B.result s
  project_events {comm r} hr := by
    rw [System.project_append, System.project_append, (lifts_first A B comm).project,
      (lifts_second A B comm).project, project_handover comm.nodup hr, A.project_events hr,
      B.project_events hr]
    rfl
  parties_ne_nil {comm} k hk := by
    obtain ⟨k, hmem, rfl⟩ | ⟨r, hmem, rfl⟩ | ⟨k, hmem, rfl⟩ := mem_seqEvents.mp hk
    · exact A.parties_ne_nil k hmem
    · exact List.cons_ne_nil r []
    · exact B.parties_ne_nil k hmem
  parties_mem {comm} k hk r hr := by
    obtain ⟨k, hmem, rfl⟩ | ⟨p, hmem, rfl⟩ | ⟨k, hmem, rfl⟩ := mem_seqEvents.mp hk
    · exact A.parties_mem k hmem r hr
    · rw [List.mem_singleton.mp hr]
      exact hmem
    · exact B.parties_mem k hmem r hr

/-- All processes change over to the second algorithm. -/
theorem run_handover {l : List ι} (hnodup : l.Nodup) {σ σ' : ι → A.State ⊕ B.State}
    (hrun : (seqSystem A B comm).Run (l.map .handover) σ σ') {τ : ι → A.State}
    (hσ : ∀ r ∈ l, σ r = .inl (τ r)) :
    ∀ r ∈ l, σ' r = .inr (B.start comm r (A.result (τ r))) := by
  induction l generalizing σ with
  | nil => simp
  | cons p l ih =>
    obtain _ | ⟨⟨out, ⟨s, hs, hout⟩, rfl⟩, hrest⟩ := hrun
    obtain ⟨hp, hnodup⟩ := List.nodup_cons.mp hnodup
    have hpl : ∀ r ∈ l, r ∉ (seqSystem A B comm).parties (.handover p) := fun r hr hmem =>
      hp (List.mem_singleton.mp hmem ▸ hr)
    have hs : s = τ p := Sum.inl_injective (hs.symm.trans (hσ p List.mem_cons_self))
    intro r hr
    rcases List.mem_cons.mp hr with rfl | hr
    · have hframe := hrest.frame (r := r) fun k hk hmem => by
        obtain ⟨q, hq, rfl⟩ := List.mem_map.mp hk
        exact hp (List.mem_singleton.mp hmem ▸ hq)
      have hr : r ∈ (seqSystem A B comm).parties (.handover r) := List.mem_singleton_self r
      rw [hframe, overlay_of_mem hr, hout, hs]
    · refine ih hnodup hrest (fun q hq => ?_) r hr
      rw [overlay_of_not_mem (hpl q hq), hσ q (List.mem_cons_of_mem _ hq)]

/-- What the processes find when they change over. -/
theorem always_handover {P : SeqEvent ι A.Event B.Event → (ι → A.State ⊕ B.State) → Prop}
    {l : List ι} (hnodup : l.Nodup) (hP : ∀ r σ s, σ r = .inl s → P (.handover r) σ)
    {σ : ι → A.State ⊕ B.State} {τ : ι → A.State} (hσ : ∀ r ∈ l, σ r = .inl (τ r)) :
    (seqSystem A B comm).Always P (l.map .handover) σ := by
  induction l generalizing σ with
  | nil => trivial
  | cons p l ih =>
    obtain ⟨hp, hnodup⟩ := List.nodup_cons.mp hnodup
    refine ⟨hP p σ _ (hσ p List.mem_cons_self), fun σ' hocc => ih hnodup fun r hr => ?_⟩
    have hframe : σ' r = σ r := hocc.frame fun hmem => hp (List.mem_singleton.mp hmem ▸ hr)
    rw [hframe, hσ r (List.mem_cons_of_mem _ hr)]

/-- What the first algorithm ensures is what the second one starts with. -/
theorem Ensures.seq {mid post : (ι → D) → Prop} (hA : A.Ensures comm c mid)
    (hB : ∀ d, mid d → B.Ensures comm d post) : (A.seq B).Ensures comm c post := by
  intro σ' hrun
  obtain ⟨σ₁, hfirst, hrun⟩ := System.run_append_iff.mp hrun
  obtain ⟨σ₂, hhandover, hsecond⟩ := System.run_append_iff.mp hrun
  obtain ⟨τ₁, hτ₁, hσ₁⟩ := (lifts_first A B comm).run A.parties_mem hfirst fun r _ => rfl
  obtain ⟨d, hd, hresult⟩ := hA τ₁ hτ₁
  have hσ₂ := run_handover comm.nodup hhandover hσ₁
  obtain ⟨τ₂, hτ₂, hσ'⟩ := (lifts_second A B comm).run B.parties_mem hsecond hσ₂
  obtain ⟨out, hout, hresult'⟩ := (hB d hd).congr hresult τ₂ hτ₂
  refine ⟨out, hout, fun r hr => ?_⟩
  rw [hσ' r hr]
  exact hresult' r hr

/-- What both algorithms find. -/
theorem Finds.seq {PA : A.Event → (ι → A.State) → Prop} {PB : B.Event → (ι → B.State) → Prop}
    {P : SeqEvent ι A.Event B.Event → (ι → A.State ⊕ B.State) → Prop} {mid : (ι → D) → Prop}
    (hPB : (B.system comm).Guard PB)
    (hfirst : ∀ k σ τ, (∀ r ∈ (A.system comm).parties k, σ r = .inl (τ r)) → PA k τ →
      P (.first k) σ)
    (hhandover : ∀ r σ s, σ r = .inl s → P (.handover r) σ)
    (hsecond : ∀ k σ τ, (∀ r ∈ (B.system comm).parties k, σ r = .inr (τ r)) → PB k τ →
      P (.second k) σ)
    (hA : A.Finds comm c PA) (hmid : A.Ensures comm c mid)
    (hB : ∀ d, mid d → B.Finds comm d PB) : (A.seq B).Finds comm c P := by
  refine System.always_append_iff.mpr ⟨?_, fun σ₁ hfirst' => ?_⟩
  · exact (lifts_first A B comm).always A.parties_mem (fun k _ => hfirst k) hA fun r _ => rfl
  obtain ⟨τ₁, hτ₁, hσ₁⟩ := (lifts_first A B comm).run A.parties_mem hfirst' fun r _ => rfl
  refine System.always_append_iff.mpr
    ⟨always_handover comm.nodup hhandover hσ₁, fun σ₂ hhandover' => ?_⟩
  obtain ⟨d, hd, hresult⟩ := hmid τ₁ hτ₁
  exact (lifts_second A B comm).always B.parties_mem (fun k _ => hsecond k)
    ((hB d hd).congr hPB fun r hr => (hresult r hr).symm)
    (run_handover comm.nodup hhandover' hσ₁)

theorem Enabled.seq {mid : (ι → D) → Prop} (hA : A.Enabled comm c) (hmid : A.Ensures comm c mid)
    (hB : ∀ d, mid d → B.Enabled comm d) : (A.seq B).Enabled comm c :=
  Finds.seq (System.guard_canOccur _)
    (fun k σ τ hagree h => (lifts_first A B comm).canOccur k σ τ h hagree)
    (fun r _ s hs => System.canOccur_iff.mpr
      ⟨fun _ => .inr (B.start comm r (A.result s)), s, hs, rfl⟩)
    (fun k σ τ hagree h => (lifts_second A B comm).canOccur k σ τ h hagree) hA hmid hB

end Seq

/-! ## One algorithm in several groups -/

section OnGroups

variable {gs : Grouping ι} {alone : D → D}

/-- The operations of all groups. -/
def groupSystem (A : Algorithm ι D) :
    System ι (Comm ι × A.Event) (A.State ⊕ D) where
  parties k := (A.system k.1).parties k.2
  effect k σ out := ∃ τ τ', (A.system k.1).effect k.2 τ τ' ∧
    ∀ r ∈ (A.system k.1).parties k.2, σ r = .inl (τ r) ∧ out r = .inl (τ' r)
  effect_congr hagree h := by
    obtain ⟨τ₁, τ₂, hk, hout⟩ := h
    exact ⟨τ₁, τ₂, hk, fun r hr => ⟨(hagree r hr).symm.trans (hout r hr).1, (hout r hr).2⟩⟩

theorem lifts_group (A : Algorithm ι D) (g : Comm ι) :
    Lifts (A.system g) (groupSystem A) (Prod.mk g) .inl where
  injective := Sum.inl_injective
  parties _ := rfl
  effect _ _ _ h := h
  canOccur _ σ τ h hagree := by
    obtain ⟨out, hout⟩ := System.canOccur_iff.mp h
    exact System.canOccur_iff.mpr
      ⟨fun r => .inl (out r), τ, out, hout, fun r hr => ⟨hagree r hr, rfl⟩⟩

theorem group_parties_mem {g : Comm ι} : ∀ k ∈ (A.events g).map (Prod.mk g),
    ∀ r ∈ (groupSystem A).parties k, r ∈ g.members := by
  intro k hk r hr
  obtain ⟨j, hj, rfl⟩ := List.mem_map.mp hk
  exact A.parties_mem j hj r hr

theorem project_group {g : Comm ι} {r : ι} (hr : r ∉ g.members) :
    (groupSystem A).project ((A.events g).map (Prod.mk g)) r = [] :=
  System.project_eq_nil fun k hk hmem => hr (group_parties_mem k hk r hmem)

/-- Each group executes `A`; a process without one keeps its value, changed by `alone`. -/
def onGroups (A : Algorithm ι D) (gs : Grouping ι) (alone : D → D) : Algorithm ι D where
  Event := Comm ι × A.Event
  State := A.State ⊕ D
  system _ := groupSystem A
  program comm r :=
    match gs.active comm r with
    | some g => (A.program g r).map (Prod.mk g)
    | none => []
  events comm := (gs.groups comm).flatMap fun g => (A.events g).map (Prod.mk g)
  start comm r d :=
    match gs.active comm r with
    | some g => .inl (A.start g r d)
    | none => .inr (alone d)
  result
    | .inl s => A.result s
    | .inr d => d
  project_events {comm r} hr := by
    split
    · next g hactive =>
      obtain ⟨hg, hrg⟩ := Grouping.mem_groups_of_active hr hactive
      rw [System.project_flatMap_of_unique Grouping.nodup_groups hg fun g' hg' hne =>
        project_group fun hmem => hne (Grouping.eq_of_mem hg' hg hmem hrg)]
      rw [(lifts_group A g).project, A.project_events hrg]
    · next hnone =>
      rw [System.project_flatMap, List.flatMap_eq_nil_iff]
      refine fun g hg => project_group fun hmem => ?_
      rw [(Grouping.active_of_mem hg hmem).2] at hnone
      cases hnone
  parties_ne_nil {comm} k hk := by
    obtain ⟨g, -, hk⟩ := List.mem_flatMap.mp hk
    obtain ⟨j, hj, rfl⟩ := List.mem_map.mp hk
    exact A.parties_ne_nil j hj
  parties_mem {comm} k hk r hr := by
    obtain ⟨g, hg, hk⟩ := List.mem_flatMap.mp hk
    obtain ⟨j, hj, rfl⟩ := List.mem_map.mp hk
    exact (Grouping.active_of_mem hg (A.parties_mem j hj r hr)).1

/-- The groups do not disturb each other. -/
theorem run_groups {l : List (Comm ι)} (hl : l.Nodup)
    (hdisj : ∀ g ∈ l, ∀ g' ∈ l, ∀ r ∈ g.members, r ∈ g'.members → g = g')
    {σ σ' : ι → A.State ⊕ D}
    (hrun : (groupSystem A).Run (l.flatMap fun g => (A.events g).map (Prod.mk g)) σ σ')
    {τ : Comm ι → ι → A.State} (hσ : ∀ g ∈ l, ∀ r ∈ g.members, σ r = .inl (τ g r)) :
    ∀ g ∈ l, ∃ τ', (A.system g).Run (A.events g) (τ g) τ' ∧
      ∀ r ∈ g.members, σ' r = .inl (τ' r) := by
  intro g hg
  obtain ⟨σ₁, hg₁, hσ₁⟩ := hrun.blocks hl (fun _ _ => group_parties_mem) hdisj g hg
  obtain ⟨τ', hτ', hσ'⟩ := (lifts_group A g).run A.parties_mem hg₁ (hσ g hg)
  exact ⟨τ', hτ', fun r hr => (hσ₁ r hr).trans (hσ' r hr)⟩

/-- Every group ensures its part. -/
theorem Ensures.onGroups {post : Comm ι → (ι → D) → Prop}
    (h : ∀ g ∈ gs.groups comm, A.Ensures g c (post g)) :
    (A.onGroups gs alone).Ensures comm c fun out =>
      (∀ g ∈ gs.groups comm, ∃ out', post g out' ∧ ∀ r ∈ g.members, out r = out' r) ∧
      ∀ r ∈ comm.members, gs.active comm r = none → out r = alone (c r) := by
  intro σ' hrun
  refine ⟨fun r => (A.onGroups gs alone).result (σ' r), ⟨fun g hg => ?_, fun r hr hnone => ?_⟩,
    fun r _ => rfl⟩
  · obtain ⟨τ', hτ', hσ'⟩ := run_groups Grouping.nodup_groups
      (fun g hg g' hg' r => Grouping.eq_of_mem hg hg') hrun
      (τ := fun g r => A.start g r (c r)) (fun g hg r hr => by
        simp only [Algorithm.onGroups, (Grouping.active_of_mem hg hr).2]) g hg
    obtain ⟨out, hout, hresult⟩ := h g hg τ' hτ'
    refine ⟨out, hout, fun r hr => ?_⟩
    rw [← hresult r hr]
    simp only [hσ' r hr]
    rfl
  · have hframe := hrun.frame (r := r) fun k hk hmem => by
      obtain ⟨g, hg, hk⟩ := List.mem_flatMap.mp hk
      obtain ⟨j, hj, rfl⟩ := List.mem_map.mp hk
      rw [(Grouping.active_of_mem hg (A.parties_mem j hj r hmem)).2] at hnone
      cases hnone
    simp only [hframe, Algorithm.onGroups, hnone]

/-- What all groups find. -/
theorem Finds.onGroups {PA : Comm ι → A.Event → (ι → A.State) → Prop}
    {P : Comm ι × A.Event → (ι → A.State ⊕ D) → Prop} (hP : (groupSystem A).Guard P)
    (hgroup : ∀ g k σ τ, (∀ r ∈ (A.system g).parties k, σ r = .inl (τ r)) → PA g k τ →
      P (g, k) σ)
    (h : ∀ g ∈ gs.groups comm, A.Finds g c (PA g)) : (A.onGroups gs alone).Finds comm c P := by
  refine System.Always.blocks hP (fun g hg => ?_) Grouping.nodup_groups
    (fun _ _ => group_parties_mem) fun g hg g' hg' r => Grouping.eq_of_mem hg hg'
  refine (lifts_group A g).always A.parties_mem (fun k _ => hgroup g k) (h g hg) fun r hr => ?_
  simp only [Algorithm.onGroups, (Grouping.active_of_mem hg hr).2]

theorem Enabled.onGroups (h : ∀ g ∈ gs.groups comm, A.Enabled g c) :
    (A.onGroups gs alone).Enabled comm c :=
  Finds.onGroups (System.guard_canOccur _)
    (fun g k σ τ hagree h => (lifts_group A g).canOccur k σ τ h hagree) h

end OnGroups

end Algorithm

end GroupOps
