import Mathlib.Data.List.TakeWhile
import Mathlib.Tactic
import ReproMPI.Pgcheck.Options

/-!
# The parameter of the clock synchronization

`ClockSyncLoader::instantiate_clock_sync` splits the value of a parameter at `@`. The first
token is the algorithm; each algorithm takes up to two fields off the rest, which it reads
with `atoi`, and leaves what remains to `instantiate_clock_offset_alg`, which reads its first
token at once. The number of tokens is compared with the number of the fields alone.
-/

namespace ReproMPI.Clocks.Loader

open Pgcheck (atoi)

/-! ## The functions of the source -/

/-- A token of the value. -/
abbrev Token := List Char

/-- What the source does not define: an access past the tokens, or `atoi` on a number that is
not an `int`. -/
inductive Undefined
  | token (index : ℕ)
  | number (text : Token)
  deriving DecidableEq, Repr

/-- The algorithms `instantiate_clock_offset_alg` makes. -/
inductive ClockOffsetAlg
  | skampi (minNbPingPongs nbPingPongs : ℤ)
  | pingpong (nexchangesRtt nexchanges : ℤ)
  deriving DecidableEq, Repr

/-- The synchronizations `instantiate_clock_sync` makes. -/
inductive ClockSync
  | hca2 (offsetAlg : ClockOffsetAlg) (nFitpoints : ℤ) (recomputeOffset : Bool)
  | hca3 (offsetAlg : ClockOffsetAlg) (nFitpoints : ℤ) (recomputeOffset : Bool)
  | hca (offsetAlg : ClockOffsetAlg) (nFitpoints : ℤ)
  | jk (offsetAlg : ClockOffsetAlg) (nFitpoints : ℤ)
  | skampi (offsetAlg : ClockOffsetAlg)
  | hca3offset (offsetAlg : ClockOffsetAlg)
  | propOffset
  | propLM
  deriving DecidableEq, Repr

/-- How `instantiate_clock_sync` ends. -/
inductive Loaded
  | null
  | exit
  | sync (s : ClockSync)
  deriving DecidableEq, Repr

/-- `str_split`. -/
def strSplit (c : Char) (str : List Char) : List Token :=
  let word := str.takeWhile (· ≠ c)
  match _h : str.dropWhile (· ≠ c) with
  | [] => [word]
  | _ :: rest => word :: strSplit c rest
termination_by str.length
decreasing_by
  have hlen := (List.dropWhile_sublist (· ≠ c) (l := str)).length_le
  rw [_h, List.length_cons] at hlen
  omega

/-- `tokens[index]`. -/
def tokenAt (tokens : List Token) (index : ℕ) : Except Undefined Token :=
  match tokens[index]? with
  | some token => .ok token
  | none => .error (.token index)

/-- `atoi(token.c_str())`. -/
def readNumber (token : Token) : Except Undefined ℤ :=
  match atoi token with
  | some x => .ok x
  | none => .error (.number token)

/-- `instantiate_clock_offset_alg`; `none` is `NULL`. -/
def instantiateClockOffsetAlg (tokens : List Token) :
    Except Undefined (Option ClockOffsetAlg) := do
  let name ← tokenAt tokens 0
  if name = "skampi_offset".toList then
    if tokens.length ≠ 3 then .ok none
    else do
      let minNbPingPongs ← readNumber (← tokenAt tokens 1)
      let nbPingPongs ← readNumber (← tokenAt tokens 2)
      .ok (some (.skampi minNbPingPongs nbPingPongs))
  else if name = "pingpong_offset".toList then
    if tokens.length ≠ 3 then .ok none
    else do
      let nexchangesRtt ← readNumber (← tokenAt tokens 1)
      let nexchanges ← readNumber (← tokenAt tokens 2)
      .ok (some (.pingpong nexchangesRtt nexchanges))
  else .ok none

/-- The synchronization made of an offset algorithm, if there is one. -/
def withOffsetAlg (tokens : List Token) (mk : ClockOffsetAlg → ClockSync) :
    Except Undefined Loaded := do
  match ← instantiateClockOffsetAlg tokens with
  | none => .ok .null
  | some offsetAlg => .ok (.sync (mk offsetAlg))

/-- The branch of `hca2` and `hca3`. -/
def loadHca23 (mk : ClockOffsetAlg → ℤ → Bool → ClockSync) (tokens : List Token) :
    Except Undefined Loaded :=
  if 2 ≤ tokens.length then do
    let recomputeOffset ← readNumber (← tokenAt tokens 0)
    let tokens := tokens.tail
    let nFitpoints ← readNumber (← tokenAt tokens 0)
    let tokens := tokens.tail
    withOffsetAlg tokens fun offsetAlg => mk offsetAlg nFitpoints (recomputeOffset = 1)
  else .ok .null

/-- The branch of `hca` and `jk`. -/
def loadHcaJk (mk : ClockOffsetAlg → ℤ → ClockSync) (tokens : List Token) :
    Except Undefined Loaded :=
  if 1 ≤ tokens.length then do
    let nFitpoints ← readNumber (← tokenAt tokens 0)
    let tokens := tokens.tail
    withOffsetAlg tokens fun offsetAlg => mk offsetAlg nFitpoints
  else .ok .null

/-- The branches of `skampi` and `hca3offset`. -/
def loadOffsetOnly (mk : ClockOffsetAlg → ClockSync) (tokens : List Token) :
    Except Undefined Loaded :=
  if 1 ≤ tokens.length then withOffsetAlg tokens mk else .ok .null

/-- The branch of `prop`. -/
def loadProp (tokens : List Token) : Except Undefined Loaded :=
  if 1 ≤ tokens.length then do
    let propType ← readNumber (← tokenAt tokens 0)
    if propType = 0 then .ok (.sync .propOffset)
    else if propType = 1 then .ok (.sync .propLM)
    else .ok .exit
  else .ok .null

/-- The branches over the first token. -/
def loadTokens (syncAlg : Token) (tokens : List Token) : Except Undefined Loaded :=
  if syncAlg = "hca2".toList then loadHca23 .hca2 tokens
  else if syncAlg = "hca3".toList then loadHca23 .hca3 tokens
  else if syncAlg = "hca".toList then loadHcaJk .hca tokens
  else if syncAlg = "jk".toList then loadHcaJk .jk tokens
  else if syncAlg = "skampi".toList then loadOffsetOnly .skampi tokens
  else if syncAlg = "hca3offset".toList then loadOffsetOnly .hca3offset tokens
  else if syncAlg = "prop".toList then loadProp tokens
  else .ok .null

/-- `instantiate_clock_sync` for the value the parameter store has, if any. -/
def instantiateClockSync (value : Option (List Char)) : Except Undefined Loaded :=
  match value with
  | none => .ok .null
  | some algStr => do
    let tokens := strSplit '@' algStr
    if tokens.length = 0 then .ok .null
    else
      let syncAlg ← tokenAt tokens 0
      loadTokens syncAlg tokens.tail

/-! ## The documented formats -/

/-- `offsetalg_format`. -/
def OffsetFormat (isNumber : Token → Prop) (tokens : List Token) : Prop :=
  ∃ name a b, tokens = [name, a, b] ∧
    (name = "skampi_offset".toList ∨ name = "pingpong_offset".toList) ∧ isNumber a ∧ isNumber b

/-- The formats in the comments and messages. They name the fields and do not say which texts
are numbers: `isNumber` does. -/
inductive DocumentedFormat (isNumber : Token → Prop) : List Token → Prop
  | hca23 {name recomputeOffsets fitpoints : Token} {offsetalg : List Token}
      (hname : name = "hca2".toList ∨ name = "hca3".toList) (hrec : isNumber recomputeOffsets)
      (hfit : isNumber fitpoints) (hoffset : OffsetFormat isNumber offsetalg) :
      DocumentedFormat isNumber (name :: recomputeOffsets :: fitpoints :: offsetalg)
  | hcaJk {name fitpoints : Token} {offsetalg : List Token}
      (hname : name = "hca".toList ∨ name = "jk".toList) (hfit : isNumber fitpoints)
      (hoffset : OffsetFormat isNumber offsetalg) :
      DocumentedFormat isNumber (name :: fitpoints :: offsetalg)
  | offsetOnly {name : Token} {offsetalg : List Token}
      (hname : name = "skampi".toList ∨ name = "hca3offset".toList)
      (hoffset : OffsetFormat isNumber offsetalg) :
      DocumentedFormat isNumber (name :: offsetalg)
  | prop {propType : Token} (htype : propType = ['0'] ∨ propType = ['1']) :
      DocumentedFormat isNumber ["prop".toList, propType]

/-- No access past the tokens, and `NULL` or an exit for a value in no documented format. -/
structure RejectsMalformed (isNumber : Token → Prop) (value : List Char) : Prop where
  noOverRead : ∀ index, instantiateClockSync (some value) ≠ .error (.token index)
  rejects : ¬ DocumentedFormat isNumber (value.splitOn '@') →
    instantiateClockSync (some value) = .ok .null ∨ instantiateClockSync (some value) = .ok .exit

/-! ## The tokens -/

theorem strSplit_of_notMem {c : Char} {str : List Char} (h : c ∉ str) : strSplit c str = [str] := by
  have hall : ∀ d ∈ str, decide (d ≠ c) = true := fun d hd =>
    decide_eq_true fun heq => h (heq ▸ hd)
  rw [strSplit]
  split
  · rw [List.takeWhile_eq_self_iff.mpr hall]
  · next hdrop =>
    rw [List.dropWhile_eq_nil_iff.mpr hall] at hdrop
    cases hdrop

theorem strSplit_append {c : Char} {word : List Char} (h : c ∉ word) (rest : List Char) :
    strSplit c (word ++ c :: rest) = word :: strSplit c rest := by
  rw [strSplit, CString.takeWhile_ne_append h]
  split
  · next hdrop =>
    rw [CString.dropWhile_ne_append h] at hdrop
    cases hdrop
  · next hdrop =>
    rw [CString.dropWhile_ne_append h] at hdrop
    obtain ⟨-, rfl⟩ := List.cons.inj hdrop
    rfl

theorem strSplit_eq_splitOn (c : Char) (str : List Char) : strSplit c str = str.splitOn c := by
  induction hk : str.length using Nat.strong_induction_on generalizing str with
  | _ k ih =>
    by_cases hmem : c ∈ str
    · obtain ⟨word, rest, rfl, hword⟩ := List.eq_append_cons_of_mem hmem
      have hlt : rest.length < k := by
        rw [← hk, List.length_append, List.length_cons]
        omega
      rw [strSplit_append hword, List.splitOn_append_cons_self_of_not_mem hword, ih _ hlt rest rfl]
    · rw [strSplit_of_notMem hmem, List.splitOn_eq_singleton hmem]

/-- There is a first token. -/
theorem instantiateClockSync_some {value : List Char} {syncAlg : Token} {tokens : List Token}
    (h : value.splitOn '@' = syncAlg :: tokens) :
    instantiateClockSync (some value) = loadTokens syncAlg tokens := by
  rw [instantiateClockSync, strSplit_eq_splitOn, h]
  simp only [List.length_cons, Nat.succ_ne_zero, if_false, tokenAt, List.getElem?_cons_zero, bind,
    Except.bind, List.tail_cons]

/-! ## The offset algorithm -/

/-- The tokens that are taken for an offset algorithm: its name and two more. -/
def OffsetShape (tokens : List Token) : Prop := OffsetFormat (fun _ => True) tokens

theorem OffsetFormat.shape {isNumber : Token → Prop} {tokens : List Token}
    (h : OffsetFormat isNumber tokens) : OffsetShape tokens := by
  obtain ⟨name, a, b, htokens, hname, -, -⟩ := h
  exact ⟨name, a, b, htokens, hname, trivial, trivial⟩

theorem readNumber_cases (token : Token) :
    (∃ x, atoi token = some x ∧ readNumber token = .ok x) ∨
    (atoi token = none ∧ readNumber token = .error (.number token)) := by
  cases h : atoi token with
  | some x => exact .inl ⟨x, rfl, by rw [readNumber, h]⟩
  | none => exact .inr ⟨rfl, by rw [readNumber, h]⟩

theorem pingpong_ne_skampi : "pingpong_offset".toList ≠ "skampi_offset".toList := by decide

/-- What the parser does with a name it knows. -/
theorem instantiateClockOffsetAlg_known {name : Token}
    (h : name = "skampi_offset".toList ∨ name = "pingpong_offset".toList) :
    ∃ mk : ℤ → ℤ → ClockOffsetAlg, ∀ rest, instantiateClockOffsetAlg (name :: rest) =
      if (name :: rest).length ≠ 3 then .ok none
      else (do
        let x ← readNumber (← tokenAt (name :: rest) 1)
        let y ← readNumber (← tokenAt (name :: rest) 2)
        .ok (some (mk x y))) := by
  rcases h with rfl | rfl
  · refine ⟨.skampi, fun rest => ?_⟩
    simp only [instantiateClockOffsetAlg, tokenAt, List.getElem?_cons_zero, bind, Except.bind,
      if_true]
  · refine ⟨.pingpong, fun rest => ?_⟩
    simp only [instantiateClockOffsetAlg, tokenAt, List.getElem?_cons_zero, bind, Except.bind,
      if_neg pingpong_ne_skampi, if_true]

/-- How a call of the parser ends: with an offset algorithm or at a number if the tokens have
the shape, with `NULL` if they have not, and past the tokens if there is none. -/
theorem instantiateClockOffsetAlg_cases (tokens : List Token) :
    (tokens = [] ∧ instantiateClockOffsetAlg tokens = .error (.token 0)) ∨
    (tokens ≠ [] ∧ ¬ OffsetShape tokens ∧ instantiateClockOffsetAlg tokens = .ok none) ∨
    (OffsetShape tokens ∧
      ((∃ alg, instantiateClockOffsetAlg tokens = .ok (some alg)) ∨
        ∃ text, instantiateClockOffsetAlg tokens = .error (.number text))) := by
  cases tokens with
  | nil => exact .inl ⟨rfl, rfl⟩
  | cons name rest =>
    refine .inr ?_
    by_cases hname : name = "skampi_offset".toList ∨ name = "pingpong_offset".toList
    · obtain ⟨mk, hparse⟩ := instantiateClockOffsetAlg_known hname
      rw [hparse]
      by_cases hlen : rest.length = 2
      · obtain ⟨a, b, rfl⟩ := List.length_eq_two.mp hlen
        refine .inr ⟨⟨name, a, b, rfl, hname, trivial, trivial⟩, ?_⟩
        rw [if_neg fun h => h rfl]
        rcases readNumber_cases a with ⟨x, -, ha⟩ | ⟨-, ha⟩
        · rcases readNumber_cases b with ⟨y, -, hb⟩ | ⟨-, hb⟩
          · exact .inl ⟨mk x y, by simp [tokenAt, ha, hb, bind, Except.bind]⟩
          · exact .inr ⟨b, by simp [tokenAt, ha, hb, bind, Except.bind]⟩
        · exact .inr ⟨a, by simp [tokenAt, ha, bind, Except.bind]⟩
      · refine .inl ⟨List.cons_ne_nil _ _, ?_, ?_⟩
        · rintro ⟨name', a, b, htokens, -⟩
          obtain ⟨-, rfl⟩ := List.cons.inj htokens
          exact hlen rfl
        · have hlen' : (name :: rest).length ≠ 3 := fun h => hlen (Nat.succ.inj h)
          rw [if_pos hlen']
    · obtain ⟨hskampi, hpingpong⟩ := not_or.mp hname
      refine .inl ⟨List.cons_ne_nil _ _, ?_, ?_⟩
      · rintro ⟨name', a, b, htokens, hname', -⟩
        obtain ⟨rfl, -⟩ := List.cons.inj htokens
        exact hname hname'
      · simp only [instantiateClockOffsetAlg, tokenAt, List.getElem?_cons_zero, bind, Except.bind,
          if_neg hskampi, if_neg hpingpong]

/-! ## The branches -/

/-- `NULL` or an exit. -/
def Rejects (r : Except Undefined Loaded) : Prop := r = .ok .null ∨ r = .ok .exit

def NoOverRead (r : Except Undefined Loaded) : Prop := ∀ index, r ≠ .error (.token index)

theorem Rejects.noOverRead {r : Except Undefined Loaded} (h : Rejects r) : NoOverRead r := by
  rintro index rfl
  rcases h with h | h
  · cases h
  · cases h

section Branches

variable {token : Token} {tokens : List Token} {k : ℤ → Except Undefined Loaded}

theorem rejects_null : Rejects (.ok .null) := .inl rfl

theorem rejects_readNumber_iff :
    Rejects (readNumber token >>= k) ↔ ∃ x, atoi token = some x ∧ Rejects (k x) := by
  rcases readNumber_cases token with ⟨x, hx, hread⟩ | ⟨hx, hread⟩
  · rw [hread, hx]
    exact ⟨fun h => ⟨x, rfl, h⟩, fun ⟨y, hy, h⟩ => Option.some.inj hy ▸ h⟩
  · rw [hread, hx]
    refine ⟨fun h => ?_, fun ⟨y, hy, _⟩ => by cases hy⟩
    rcases h with h | h
    · cases h
    · cases h

theorem noOverRead_readNumber (h : ∀ x, NoOverRead (k x)) :
    NoOverRead (readNumber token >>= k) := by
  rcases readNumber_cases token with ⟨x, -, hread⟩ | ⟨-, hread⟩
  · rw [hread]
    exact h x
  · rw [hread]
    rintro index ⟨⟩

theorem withOffsetAlg_rejects_iff {mk : ClockOffsetAlg → ClockSync} :
    Rejects (withOffsetAlg tokens mk) ↔ tokens ≠ [] ∧ ¬ OffsetShape tokens := by
  rw [withOffsetAlg]
  rcases instantiateClockOffsetAlg_cases tokens with ⟨hnil, h⟩ | ⟨hne, hshape, h⟩ |
    ⟨hshape, ⟨alg, h⟩ | ⟨text, h⟩⟩
  · rw [h]
    exact ⟨fun h => absurd (h.noOverRead 0 rfl) id, fun h => absurd hnil h.1⟩
  · rw [h]
    exact ⟨fun _ => ⟨hne, hshape⟩, fun _ => rejects_null⟩
  · rw [h]
    refine ⟨fun h => ?_, fun h => absurd hshape h.2⟩
    rcases h with h | h
    · cases h
    · cases h
  · rw [h]
    refine ⟨fun h => ?_, fun h => absurd hshape h.2⟩
    rcases h with h | h
    · cases h
    · cases h

theorem withOffsetAlg_noOverRead {mk : ClockOffsetAlg → ClockSync} (hshape : OffsetShape tokens) :
    NoOverRead (withOffsetAlg tokens mk) := by
  rw [withOffsetAlg]
  rcases instantiateClockOffsetAlg_cases tokens with ⟨rfl, -⟩ | ⟨-, hno, -⟩ |
    ⟨-, ⟨alg, h⟩ | ⟨text, h⟩⟩
  · obtain ⟨name, a, b, htokens, -⟩ := hshape
    cases htokens
  · exact absurd hshape hno
  · rw [h]
    rintro index ⟨⟩
  · rw [h]
    rintro index ⟨⟩

theorem loadHca23_cons (mk : ClockOffsetAlg → ℤ → Bool → ClockSync) (r f : Token)
    (tokens : List Token) :
    loadHca23 mk (r :: f :: tokens) = readNumber r >>= fun recomputeOffset =>
      readNumber f >>= fun nFitpoints =>
        withOffsetAlg tokens fun alg => mk alg nFitpoints (recomputeOffset = 1) := by
  rw [loadHca23, if_pos (by simp)]
  rfl

theorem loadHcaJk_cons (mk : ClockOffsetAlg → ℤ → ClockSync) (f : Token) (tokens : List Token) :
    loadHcaJk mk (f :: tokens) = readNumber f >>= fun nFitpoints =>
      withOffsetAlg tokens fun alg => mk alg nFitpoints := by
  rw [loadHcaJk, if_pos (by simp)]
  rfl

theorem loadOffsetOnly_rejects_iff {mk : ClockOffsetAlg → ClockSync} :
    Rejects (loadOffsetOnly mk tokens) ↔ ¬ OffsetShape tokens := by
  cases tokens with
  | nil =>
    refine ⟨fun _ => ?_, fun _ => rejects_null⟩
    rintro ⟨name, a, b, htokens, -⟩
    cases htokens
  | cons token tokens =>
    rw [loadOffsetOnly, if_pos (by simp), withOffsetAlg_rejects_iff]
    exact ⟨fun h => h.2, fun h => ⟨List.cons_ne_nil _ _, h⟩⟩

theorem loadProp_cons (propType : Token) (tokens : List Token) :
    loadProp (propType :: tokens) = readNumber propType >>= fun x =>
      if x = 0 then .ok (.sync .propOffset)
      else if x = 1 then .ok (.sync .propLM)
      else .ok .exit := by
  rw [loadProp, if_pos (by simp)]
  rfl

end Branches

/-! ## The values that are rejected -/

/-- The names `instantiate_clock_sync` knows. -/
def syncAlgs : List Token :=
  ["hca2", "hca3", "hca", "jk", "skampi", "hca3offset", "prop"].map String.toList

/-- The tokens that are declined: too few for the fields, an offset algorithm of the wrong
shape behind them, another number for `prop`, an unknown name. A field that is read must not be
a number outside the range of `int`. -/
inductive Declined : List Token → Prop
  | hca23Short {name : Token} {tokens : List Token}
      (hname : name = "hca2".toList ∨ name = "hca3".toList) (hlen : tokens.length < 2) :
      Declined (name :: tokens)
  | hca23 {name r f : Token} {tokens : List Token} {x y : ℤ}
      (hname : name = "hca2".toList ∨ name = "hca3".toList) (hr : atoi r = some x)
      (hf : atoi f = some y) (hne : tokens ≠ []) (hshape : ¬ OffsetShape tokens) :
      Declined (name :: r :: f :: tokens)
  | hcaJkShort {name : Token} (hname : name = "hca".toList ∨ name = "jk".toList) :
      Declined [name]
  | hcaJk {name f : Token} {tokens : List Token} {x : ℤ}
      (hname : name = "hca".toList ∨ name = "jk".toList) (hf : atoi f = some x)
      (hne : tokens ≠ []) (hshape : ¬ OffsetShape tokens) : Declined (name :: f :: tokens)
  | offsetOnly {name : Token} {tokens : List Token}
      (hname : name = "skampi".toList ∨ name = "hca3offset".toList)
      (hshape : ¬ OffsetShape tokens) : Declined (name :: tokens)
  | propShort : Declined ["prop".toList]
  | prop {propType : Token} {tokens : List Token} {x : ℤ} (hx : atoi propType = some x)
      (h0 : x ≠ 0) (h1 : x ≠ 1) : Declined ("prop".toList :: propType :: tokens)
  | unknown {name : Token} {tokens : List Token} (hname : name ∉ syncAlgs) :
      Declined (name :: tokens)

section Dispatch

variable {name : Token}

theorem loadTokens_hca23 (h : name = "hca2".toList ∨ name = "hca3".toList) :
    ∃ mk, loadTokens name = loadHca23 mk := by
  rcases h with rfl | rfl
  · exact ⟨.hca2, rfl⟩
  · exact ⟨.hca3, rfl⟩

theorem loadTokens_hcaJk (h : name = "hca".toList ∨ name = "jk".toList) :
    ∃ mk, loadTokens name = loadHcaJk mk := by
  rcases h with rfl | rfl
  · exact ⟨.hca, rfl⟩
  · exact ⟨.jk, rfl⟩

theorem loadTokens_offsetOnly (h : name = "skampi".toList ∨ name = "hca3offset".toList) :
    ∃ mk, loadTokens name = loadOffsetOnly mk := by
  rcases h with rfl | rfl
  · exact ⟨.skampi, rfl⟩
  · exact ⟨.hca3offset, rfl⟩

theorem loadTokens_prop : loadTokens "prop".toList = loadProp := rfl

theorem loadTokens_unknown (h : name ∉ syncAlgs) (tokens : List Token) :
    loadTokens name tokens = .ok .null := by
  simp only [syncAlgs, List.map_cons, List.map_nil, List.mem_cons, List.not_mem_nil, or_false,
    not_or] at h
  obtain ⟨h1, h2, h3, h4, h5, h6, h7⟩ := h
  rw [loadTokens, if_neg h1, if_neg h2, if_neg h3, if_neg h4, if_neg h5, if_neg h6, if_neg h7]

theorem rejects_of_declined {tokens : List Token} (h : Declined (name :: tokens)) :
    Rejects (loadTokens name tokens) := by
  cases h with
  | hca23Short hname hlen =>
    obtain ⟨mk, hmk⟩ := loadTokens_hca23 hname
    rw [hmk, loadHca23, if_neg (by omega)]
    exact rejects_null
  | hca23 hname hr hf hne hshape =>
    obtain ⟨mk, hmk⟩ := loadTokens_hca23 hname
    rw [hmk, loadHca23_cons, rejects_readNumber_iff]
    exact ⟨_, hr, rejects_readNumber_iff.mpr
      ⟨_, hf, withOffsetAlg_rejects_iff.mpr ⟨hne, hshape⟩⟩⟩
  | hcaJkShort hname =>
    obtain ⟨mk, hmk⟩ := loadTokens_hcaJk hname
    rw [hmk]
    exact rejects_null
  | hcaJk hname hf hne hshape =>
    obtain ⟨mk, hmk⟩ := loadTokens_hcaJk hname
    rw [hmk, loadHcaJk_cons, rejects_readNumber_iff]
    exact ⟨_, hf, withOffsetAlg_rejects_iff.mpr ⟨hne, hshape⟩⟩
  | offsetOnly hname hshape =>
    obtain ⟨mk, hmk⟩ := loadTokens_offsetOnly hname
    rw [hmk]
    exact loadOffsetOnly_rejects_iff.mpr hshape
  | propShort => exact rejects_null
  | prop hx h0 h1 =>
    rw [loadTokens_prop, loadProp_cons, rejects_readNumber_iff]
    exact ⟨_, hx, by rw [if_neg h0, if_neg h1]; exact .inr rfl⟩
  | unknown hname =>
    rw [loadTokens_unknown hname]
    exact rejects_null

theorem declined_of_rejects {tokens : List Token} (h : Rejects (loadTokens name tokens)) :
    Declined (name :: tokens) := by
  by_cases hknown : name ∉ syncAlgs
  · exact .unknown hknown
  simp only [syncAlgs, List.map_cons, List.map_nil, List.mem_cons, List.not_mem_nil, or_false,
    not_not] at hknown
  have hcases : (name = "hca2".toList ∨ name = "hca3".toList) ∨
      (name = "hca".toList ∨ name = "jk".toList) ∨
      (name = "skampi".toList ∨ name = "hca3offset".toList) ∨ name = "prop".toList := by
    tauto
  rcases hcases with hname | hname | hname | rfl
  · obtain ⟨mk, hmk⟩ := loadTokens_hca23 hname
    rw [hmk] at h
    match tokens, h with
    | [], _ => exact .hca23Short hname (by simp)
    | [_], _ => exact .hca23Short hname (by simp)
    | r :: f :: tokens, h =>
      rw [loadHca23_cons] at h
      obtain ⟨x, hr, h⟩ := rejects_readNumber_iff.mp h
      obtain ⟨y, hf, h⟩ := rejects_readNumber_iff.mp h
      obtain ⟨hne, hshape⟩ := withOffsetAlg_rejects_iff.mp h
      exact .hca23 hname hr hf hne hshape
  · obtain ⟨mk, hmk⟩ := loadTokens_hcaJk hname
    rw [hmk] at h
    cases tokens with
    | nil => exact .hcaJkShort hname
    | cons f tokens =>
      rw [loadHcaJk_cons] at h
      obtain ⟨x, hf, h⟩ := rejects_readNumber_iff.mp h
      obtain ⟨hne, hshape⟩ := withOffsetAlg_rejects_iff.mp h
      exact .hcaJk hname hf hne hshape
  · obtain ⟨mk, hmk⟩ := loadTokens_offsetOnly hname
    rw [hmk] at h
    exact .offsetOnly hname (loadOffsetOnly_rejects_iff.mp h)
  · cases tokens with
    | nil => exact .propShort
    | cons propType tokens =>
      rw [loadTokens_prop, loadProp_cons] at h
      obtain ⟨x, hx, h⟩ := rejects_readNumber_iff.mp h
      refine .prop hx ?_ ?_
      · rintro rfl
        rcases h with h | h <;> cases h
      · rintro rfl
        rcases h with h | h <;> cases h

/-- In a documented format nothing past the tokens is read. -/
theorem noOverRead_of_documented {isNumber : Token → Prop} {tokens : List Token}
    (h : DocumentedFormat isNumber (name :: tokens)) : NoOverRead (loadTokens name tokens) := by
  cases h with
  | hca23 hname _ _ hoffset =>
    obtain ⟨mk, hmk⟩ := loadTokens_hca23 hname
    rw [hmk, loadHca23_cons]
    exact noOverRead_readNumber fun _ => noOverRead_readNumber fun _ =>
      withOffsetAlg_noOverRead hoffset.shape
  | hcaJk hname _ hoffset =>
    obtain ⟨mk, hmk⟩ := loadTokens_hcaJk hname
    rw [hmk, loadHcaJk_cons]
    exact noOverRead_readNumber fun _ => withOffsetAlg_noOverRead hoffset.shape
  | offsetOnly hname hoffset =>
    obtain ⟨mk, hmk⟩ := loadTokens_offsetOnly hname
    obtain ⟨first, a, b, rfl, -⟩ := hoffset.shape
    rw [hmk, loadOffsetOnly, if_pos (by simp)]
    exact withOffsetAlg_noOverRead hoffset.shape
  | prop _ =>
    rw [loadTokens_prop, loadProp_cons]
    refine noOverRead_readNumber fun x index => ?_
    split
    · rintro ⟨⟩
    · split
      · rintro ⟨⟩
      · rintro ⟨⟩

end Dispatch

/-- Malformed values are rejected without an access past the tokens exactly where the value has
a documented format or is declined. -/
theorem rejectsMalformed_iff (isNumber : Token → Prop) (value : List Char) :
    RejectsMalformed isNumber value ↔
      DocumentedFormat isNumber (value.splitOn '@') ∨ Declined (value.splitOn '@') := by
  obtain ⟨name, tokens, htokens⟩ :=
    List.exists_cons_of_ne_nil (List.splitOn_ne_nil '@' value)
  have hload := instantiateClockSync_some htokens
  constructor
  · intro h
    by_cases hdoc : DocumentedFormat isNumber (value.splitOn '@')
    · exact .inl hdoc
    · right
      have hrejects := h.rejects hdoc
      rw [hload] at hrejects
      rw [htokens]
      exact declined_of_rejects hrejects
  · rintro (hdoc | hdeclined)
    · refine ⟨?_, fun hnot => absurd hdoc hnot⟩
      rw [htokens] at hdoc
      rw [hload]
      exact noOverRead_of_documented hdoc
    · rw [htokens] at hdeclined
      have hrejects := rejects_of_declined hdeclined
      refine ⟨?_, fun _ => ?_⟩
      · rw [hload]
        exact hrejects.noOverRead
      · rw [hload]
        exact hrejects

/-- With only the two fields of `hca2` the first of no tokens is read; `prop` takes any text for
its zero. -/
theorem rejectsMalformed_fails :
    instantiateClockSync (some "hca2@0@10".toList) = .error (.token 0) ∧
    ¬ RejectsMalformed (fun _ => True) "hca2@0@10".toList ∧
    instantiateClockSync (some "prop@x".toList) = .ok (.sync .propOffset) ∧
    ¬ RejectsMalformed (fun _ => True) "prop@x".toList := by
  have hhca : instantiateClockSync (some "hca2@0@10".toList) = .error (.token 0) := by
    have htokens : "hca2@0@10".toList.splitOn '@' = ["hca2".toList, ['0'], ['1', '0']] := by decide
    rw [instantiateClockSync_some htokens]
    rfl
  have hprop_tokens : "prop@x".toList.splitOn '@' = ["prop".toList, ['x']] := by decide
  have hprop : instantiateClockSync (some "prop@x".toList) = .ok (.sync .propOffset) := by
    rw [instantiateClockSync_some hprop_tokens]
    rfl
  refine ⟨hhca, fun h => h.noOverRead 0 hhca, hprop, fun h => ?_⟩
  have hrejects := h.rejects ?_
  · rw [hprop] at hrejects
    rcases hrejects with h | h <;> cases h
  · rw [hprop_tokens]
    intro hdoc
    cases hdoc with
    | hcaJk hname => exact absurd hname (by decide)
    | offsetOnly hname => exact absurd hname (by decide)
    | prop htype => exact absurd htype (by decide)

end ReproMPI.Clocks.Loader
