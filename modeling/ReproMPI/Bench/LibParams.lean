import Mathlib.Tactic
import ReproMPI.Lib.CInt
import ReproMPI.Lib.Strtok

/-!
# Parameters of the library from the environment

`reprompi_check_and_override_lib_env_params` splits `REPROMPI_LIB_PARAMS` at blanks into a new
argument vector. The length of the vector comes from `compute_argc`, which counts the blanks
before a word that is not the first one, and one more where the text ends inside of a word. A
text that ends with a blank, or with a word of one character behind a blank, has one token more
than it counts.
-/

namespace ReproMPI.Bench

/-- The separator of the parameters. -/
def isBlank (c : Char) : Bool := c == ' '

/-! ## `compute_argc` -/

/-- The variables of `compute_argc`. -/
structure ArgcState where
  cnt : ℤ := 0
  white : Bool := false
  seenword : Bool := false
  deriving DecidableEq, Repr

/-- Whether the `else` branch counts: `last` stands for `i == strlen(str) - 1`. -/
def ArgcState.counts (st : ArgcState) (last : Bool) : Bool :=
  if last && !st.white then true else st.white && st.seenword

/-- One turn of the loop for the character `c`. -/
def ArgcState.next (st : ArgcState) (last : Bool) (c : Char) : Option ArgcState :=
  if isBlank c then some { st with white := true }
  else if st.counts last then
    (CInt.check (st.cnt + 1)).map fun cnt => { cnt := cnt, white := false, seenword := true }
  else some { st with white := false, seenword := true }

/-- The loop from position `i` on; `i` is an `int` that is incremented after each turn. -/
def argcLoop (strlen : ℕ) : List Char → ℤ → ArgcState → Option ArgcState
  | [], _, st => some st
  | c :: rest, i, st => do
    let st ← st.next (decide (i = (strlen : ℤ) - 1)) c
    let i ← CInt.check (i + 1)
    argcLoop strlen rest i st

/-- `compute_argc`. -/
def computeArgc (str : List Char) : Option ℤ :=
  (argcLoop str.length str 0 {}).map ArgcState.cnt

/-! ## The new argument vector -/

/-- The assignment to `argvnew[i]`; `none` is a write outside of the array. -/
def assignArg (argvnew : List (Option (List Char))) (i : ℕ) (token : List Char) :
    Option (List (Option (List Char))) :=
  if i < argvnew.length then some (argvnew.set i (some token)) else none

/-- The last `k` turns of the `for` loop, from `i` on; `rest` is what `strtok` has left. -/
def storeTokens (argvnew : List (Option (List Char))) (rest : List Char) (i : ℕ) :
    ℕ → Option (List (Option (List Char)))
  | 0 => some argvnew
  | k + 1 =>
    match Strtok.next isBlank rest with
    | none => storeTokens argvnew rest (i + 1) k
    | some (token, rest) => do
      let argvnew ← assignArg argvnew i token
      storeTokens argvnew rest (i + 1) k

/-- `argc` and the slots of `argv` after the call, `none` for a slot that was not written. -/
structure ArgVector where
  argc : ℤ
  argv : List (Option (List Char))
  deriving DecidableEq, Repr

/-- `reprompi_check_and_override_lib_env_params` where the variable is set to `env`. -/
def checkAndOverrideLibEnvParams (argv0 env : List Char) : Option ArgVector := do
  let cnt ← computeArgc env
  let argc ← CInt.check (cnt + 1)
  let argvnew := List.replicate argc.toNat none
  let argvnew ← assignArg argvnew 0 argv0
  match Strtok.next isBlank env with
  | none => some { argc := argc, argv := argvnew }
  | some (token, rest) => do
    let argvnew ← assignArg argvnew 1 token
    let argvnew ← storeTokens argvnew rest 2 (argc.toNat - 2)
    some { argc := argc, argv := argvnew }

/-- What the vector should be: the program's name and every token. -/
def fullArgVector (argv0 env : List Char) : ArgVector :=
  { argc := ((Strtok.tokens isBlank env).length + 1 : ℕ)
    argv := (argv0 :: Strtok.tokens isBlank env).map some }

/-! ## What `compute_argc` counts -/

/-- The count of the loop, with the flags of the state. -/
def argcCount : Bool → Bool → List Char → ℕ
  | _, _, [] => 0
  | white, seenword, c :: rest =>
    if isBlank c then argcCount true seenword rest
    else
      (if ArgcState.counts { white := white, seenword := seenword } rest.isEmpty then 1 else 0) +
        argcCount false true rest

/-- The loop computes the count unless its index leaves the range of an `int`. -/
theorem argcLoop_eq {strlen : ℕ} {s : List Char} {i : ℤ} {st : ArgcState}
    (hi : i + s.length = strlen) (hstrlen : strlen ≤ 2147483647) (hi0 : 0 ≤ i)
    (hcnt : 0 ≤ st.cnt ∧ st.cnt ≤ i) :
    (argcLoop strlen s i st).map ArgcState.cnt =
      some (st.cnt + argcCount st.white st.seenword s) := by
  induction s generalizing i st with
  | nil =>
    rw [argcLoop, argcCount, Option.map_some, Nat.cast_zero, add_zero]
  | cons c rest ih =>
    rw [List.length_cons] at hi
    push_cast at hi
    have hnext : CInt.check (i + 1) = some (i + 1) :=
      CInt.check_of_inRange ⟨by omega, by omega⟩
    have hlast : decide (i = (strlen : ℤ) - 1) = rest.isEmpty := by
      rw [Bool.eq_iff_iff, decide_eq_true_iff, List.isEmpty_iff_length_eq_zero]
      omega
    rw [argcLoop, hlast, argcCount]
    rw [ArgcState.next]
    by_cases hc : isBlank c = true
    · rw [if_pos hc, if_pos hc, Option.bind_eq_bind, Option.bind_some, hnext,
        Option.bind_eq_bind, Option.bind_some]
      exact ih (by omega) (by omega) ⟨hcnt.1, hcnt.2.trans (by omega)⟩
    · rw [if_neg hc, if_neg hc]
      have hcounts : ArgcState.counts { white := st.white, seenword := st.seenword } rest.isEmpty =
          st.counts rest.isEmpty := rfl
      rw [hcounts]
      cases st.counts rest.isEmpty with
      | true =>
        have hcheck : CInt.check (st.cnt + 1) = some (st.cnt + 1) :=
          CInt.check_of_inRange ⟨by omega, by omega⟩
        rw [if_pos rfl, if_pos rfl, hcheck, Option.map_some, Option.bind_eq_bind,
          Option.bind_some, hnext, Option.bind_eq_bind, Option.bind_some,
          ih (by omega) (by omega)
            ⟨Int.add_nonneg hcnt.1 (by decide), Int.add_le_add_right hcnt.2 1⟩]
        push_cast
        rw [add_assoc]
      | false =>
        rw [if_neg Bool.false_ne_true, if_neg Bool.false_ne_true, Option.bind_eq_bind,
          Option.bind_some, hnext, Option.bind_eq_bind, Option.bind_some, Nat.zero_add]
        exact ih (by omega) (by omega) ⟨hcnt.1, hcnt.2.trans (by omega)⟩

/-- A text longer than `INT_MAX` takes the index out of the range of an `int`. -/
theorem argcLoop_eq_none {strlen : ℕ} {s : List Char} {i : ℤ} (st : ArgcState)
    (hi : i ≤ 2147483647) (hlen : 2147483647 < i + s.length) : argcLoop strlen s i st = none := by
  induction s generalizing i st with
  | nil =>
    rw [List.length_nil, Nat.cast_zero, add_zero] at hlen
    exact absurd hi (not_le.mpr hlen)
  | cons c rest ih =>
    rw [List.length_cons] at hlen
    push_cast at hlen
    rw [argcLoop, Option.bind_eq_bind, Option.bind_eq_none_iff]
    intro st' _
    rw [Option.bind_eq_bind, Option.bind_eq_none_iff]
    intro i' hi'
    obtain ⟨rfl, hrange⟩ := CInt.check_eq_some_iff.mp hi'
    exact ih st' hrange.2 (by omega)

theorem computeArgc_eq {str : List Char} (hlen : str.length ≤ 2147483647) :
    computeArgc str = some (argcCount false false str : ℤ) := by
  have hloop : (argcLoop str.length str 0 {}).map ArgcState.cnt =
      some (0 + (argcCount false false str : ℤ)) :=
    argcLoop_eq (zero_add _) hlen le_rfl ⟨le_rfl, le_rfl⟩
  rw [zero_add] at hloop
  exact hloop

theorem computeArgc_eq_none {str : List Char} (hlen : 2147483647 < str.length) :
    computeArgc str = none := by
  rw [computeArgc]
  rw [argcLoop_eq_none {} (by decide) (by omega)]
  rfl

/-! ## The count and the tokens -/

/-- The last character is no blank and continues a word; `white` stands for what is before the
text. -/
def endsInWord : Bool → List Char → Bool
  | _, [] => false
  | white, [c] => !isBlank c && !white
  | _, c :: d :: rest => endsInWord (isBlank c) (d :: rest)

theorem endsInWord_cons {white : Bool} {c : Char} {rest : List Char} (hrest : rest ≠ []) :
    endsInWord white (c :: rest) = endsInWord (isBlank c) rest := by
  obtain ⟨d, rest, rfl⟩ := List.exists_cons_of_ne_nil hrest
  rfl

theorem endsInWord_cons_blank {white : Bool} {c : Char} {rest : List Char}
    (hc : isBlank c = true) : endsInWord white (c :: rest) = endsInWord true rest := by
  cases rest with
  | nil => simp [endsInWord, hc]
  | cons d rest => rw [endsInWord_cons (List.cons_ne_nil _ _), hc]

/-- Once a word was seen, every further token counts, and so does a text that ends inside of a
word. -/
theorem argcCount_seen (white : Bool) (s : List Char) :
    argcCount white true s + (if !white && s.head?.any fun c => !isBlank c then 1 else 0) =
      (Strtok.tokens isBlank s).length + (endsInWord white s).toNat := by
  induction s generalizing white with
  | nil => simp [argcCount, endsInWord, Strtok.tokens_nil]
  | cons c rest ih =>
    cases hc : isBlank c with
    | true =>
      rw [argcCount, if_pos hc, Strtok.tokens_cons_sep hc, endsInWord_cons_blank hc, ← ih true]
      simp [hc]
    | false =>
      have hrest := ih false
      rw [argcCount, if_neg (by simp [hc]), Strtok.length_tokens_cons_word hc]
      cases rest with
      | nil =>
        cases white <;> simp [argcCount, ArgcState.counts, endsInWord, hc, Strtok.tokens_nil]
      | cons d rest =>
        rw [endsInWord_cons (List.cons_ne_nil _ _), hc]
        cases hd : isBlank d <;> cases white <;>
          simp [ArgcState.counts, hc, hd] at hrest ⊢ <;> omega

/-- Before a word was seen its first token is not counted. -/
theorem argcCount_unseen (white : Bool) (s : List Char) :
    (Strtok.tokens isBlank s = [] → argcCount white false s = 0) ∧
      (Strtok.tokens isBlank s ≠ [] → argcCount white false s + 1 =
        (Strtok.tokens isBlank s).length + (endsInWord white s).toNat) := by
  induction s generalizing white with
  | nil => exact ⟨fun _ => rfl, fun h => absurd Strtok.tokens_nil h⟩
  | cons c rest ih =>
    cases hc : isBlank c with
    | true =>
      rw [argcCount, if_pos hc, Strtok.tokens_cons_sep hc, endsInWord_cons_blank hc]
      exact ih true
    | false =>
      refine ⟨fun h => ?_, fun _ => ?_⟩
      · rw [Strtok.tokens_cons_word hc] at h
        cases h
      · have hrest := argcCount_seen false rest
        rw [argcCount, if_neg (by simp [hc]), Strtok.length_tokens_cons_word hc]
        cases rest with
        | nil =>
          cases white <;> simp [argcCount, ArgcState.counts, endsInWord, hc, Strtok.tokens_nil]
        | cons d rest =>
          rw [endsInWord_cons (List.cons_ne_nil _ _), hc]
          cases hd : isBlank d <;> cases white <;>
            simp [ArgcState.counts, hd] at hrest ⊢ <;> omega

/-- The text ends inside of a word, of more than one character if there is a blank before it:
neither of the last two characters is a blank. -/
def EndsInWord (s : List Char) : Prop :=
  s.getLast? ≠ some ' ' ∧ s.dropLast.getLast? ≠ some ' '

instance : DecidablePred EndsInWord := fun s => by unfold EndsInWord; infer_instance

theorem isBlank_eq_false_iff {c : Char} : isBlank c = false ↔ c ≠ ' ' := by
  rw [isBlank]
  exact beq_eq_false_iff_ne

theorem endsInWord_false_cons (c : Char) (rest : List Char) :
    endsInWord false (c :: rest) = true ↔ EndsInWord (c :: rest) := by
  induction rest generalizing c with
  | nil =>
    simp only [EndsInWord, endsInWord]
    simp [isBlank_eq_false_iff]
  | cons d rest ih =>
    rw [endsInWord_cons (List.cons_ne_nil _ _)]
    cases rest with
    | nil =>
      simp only [EndsInWord, endsInWord]
      simp [isBlank_eq_false_iff]
    | cons e rest =>
      have hc : endsInWord (isBlank c) (d :: e :: rest) = endsInWord false (d :: e :: rest) := rfl
      rw [hc, ih]
      simp only [EndsInWord]
      simp only [List.getLast?_cons_cons, List.dropLast_cons_cons]

/-- `compute_argc` is right for a text without tokens and for one that ends inside of a word;
for any other text it returns one less than the number of tokens. -/
theorem computeArgc_eq_length_iff (str : List Char) :
    computeArgc str = some ((Strtok.tokens isBlank str).length : ℤ) ↔
      str.length ≤ 2147483647 ∧ (Strtok.tokens isBlank str = [] ∨ EndsInWord str) := by
  rcases Nat.lt_or_ge 2147483647 str.length with hlong | hlen
  · rw [computeArgc_eq_none hlong]
    exact iff_of_false (by simp) fun h => absurd h.1 (not_le.mpr hlong)
  · rw [computeArgc_eq hlen, and_iff_right hlen, Option.some_inj, Nat.cast_inj]
    obtain ⟨hnil, hcons⟩ := argcCount_unseen false str
    by_cases htokens : Strtok.tokens isBlank str = []
    · rw [hnil htokens, htokens]
      exact iff_of_true rfl (.inl rfl)
    · rw [or_iff_right htokens]
      have hcount := hcons htokens
      obtain ⟨c, rest, rfl⟩ : ∃ c rest, str = c :: rest := by
        refine List.exists_cons_of_ne_nil fun h => htokens ?_
        rw [h, Strtok.tokens_nil]
      rw [← endsInWord_false_cons]
      cases hends : endsInWord false (c :: rest) with
      | true =>
        rw [hends, Bool.toNat_true] at hcount
        exact iff_of_true (by omega) rfl
      | false =>
        rw [hends, Bool.toNat_false] at hcount
        exact iff_of_false (by omega) Bool.false_ne_true

/-! ## What is stored -/

/-- With as many turns as there are tokens left, every slot behind the ones already written
gets its token. -/
theorem storeTokens_eq (written : List (List Char)) (rest : List Char) :
    storeTokens (written.map some ++
        List.replicate (Strtok.tokens isBlank rest).length none) rest written.length
        (Strtok.tokens isBlank rest).length =
      some ((written ++ Strtok.tokens isBlank rest).map some) := by
  generalize hk : (Strtok.tokens isBlank rest).length = k
  induction k generalizing written rest with
  | zero =>
    rw [List.length_eq_zero_iff.mp hk]
    simp [storeTokens]
  | succ k ih =>
    cases hnext : Strtok.next isBlank rest with
    | none =>
      rw [Strtok.tokens_of_none hnext] at hk
      cases hk
    | some r =>
      obtain ⟨token, rest'⟩ := r
      have htokens := Strtok.tokens_of_some hnext
      rw [htokens, List.length_cons, Nat.add_right_cancel_iff] at hk
      have hassign : assignArg (written.map some ++ List.replicate (k + 1) none) written.length
          token = some ((written ++ [token]).map some ++ List.replicate k none) := by
        rw [assignArg]
        rw [if_pos (by simp), List.set_append_right _ _ (by simp), List.length_map,
          Nat.sub_self, List.replicate_succ, List.set_cons_zero, List.map_append]
        simp
      have hlength : (written ++ [token]).length = written.length + 1 := by simp
      have hstore := ih (written ++ [token]) rest' hk
      rw [hlength] at hstore
      rw [storeTokens, hnext]
      dsimp only
      rw [hassign, Option.bind_eq_bind, Option.bind_some, hstore, htokens, List.append_assoc,
        List.singleton_append]

/-- With the right count the vector is filled completely and nothing is written outside of
it. -/
theorem checkAndOverride_of_count (argv0 : List Char) {env : List Char}
    (hlen : env.length ≤ 2147483647)
    (hcount : computeArgc env = some ((Strtok.tokens isBlank env).length : ℤ)) :
    checkAndOverrideLibEnvParams argv0 env = some (fullArgVector argv0 env) := by
  have hbound := Strtok.two_mul_length_tokens_le isBlank env
  have hcheck : CInt.check (((Strtok.tokens isBlank env).length : ℤ) + 1) =
      some (((Strtok.tokens isBlank env).length + 1 : ℕ) : ℤ) := by
    rw [CInt.check_of_inRange ⟨by omega, by split at hbound <;> omega⟩]
    push_cast
    rfl
  have hname : ∀ k, assignArg (List.replicate (k + 1) none) 0 argv0 =
      some (some argv0 :: List.replicate k none) := fun k => rfl
  rw [checkAndOverrideLibEnvParams, fullArgVector]
  rw [hcount, Option.bind_eq_bind, Option.bind_some, hcheck, Option.bind_eq_bind,
    Option.bind_some]
  dsimp only
  rw [Int.toNat_natCast, hname, Option.bind_some]
  cases hnext : Strtok.next isBlank env with
  | none =>
    rw [Strtok.tokens_of_none hnext]
    rfl
  | some r =>
    obtain ⟨token, rest⟩ := r
    have hstore := storeTokens_eq [argv0, token] rest
    rw [Strtok.tokens_of_some hnext]
    generalize Strtok.tokens isBlank rest = tokens at hstore ⊢
    have htoken : assignArg (some argv0 :: List.replicate (token :: tokens).length none) 1 token =
        some ([argv0, token].map some ++ List.replicate tokens.length none) := rfl
    have hturns : (token :: tokens).length + 1 - 2 = tokens.length := by
      rw [List.length_cons]
      omega
    dsimp only
    rw [htoken, Option.bind_some, hturns]
    exact Option.bind_eq_some_iff.mpr ⟨_, hstore, rfl⟩

/-- The parameters are split completely exactly when the text has no token or ends inside of a
word, and its length is an `int`. Otherwise the count is one too small: the only token is
written behind the end of the vector, or the last one of several is lost. -/
theorem checkAndOverride_complete_iff (argv0 env : List Char) :
    (computeArgc env = some ((Strtok.tokens isBlank env).length : ℤ) ∧
        checkAndOverrideLibEnvParams argv0 env = some (fullArgVector argv0 env)) ↔
      env.length ≤ 2147483647 ∧ (Strtok.tokens isBlank env = [] ∨ EndsInWord env) := by
  rw [← computeArgc_eq_length_iff]
  refine ⟨And.left, fun h => ⟨h, ?_⟩⟩
  exact checkAndOverride_of_count argv0 ((computeArgc_eq_length_iff env).mp h).1 h

/-- A trailing blank: the only token is written outside of the vector. A last token of one
character: it is lost. -/
theorem checkAndOverride_misses :
    computeArgc "-v ".toList = some 0 ∧
      checkAndOverrideLibEnvParams "bench".toList "-v ".toList = none ∧
      computeArgc "--nrep 5".toList = some 1 ∧
      checkAndOverrideLibEnvParams "bench".toList "--nrep 5".toList =
        some { argc := 2, argv := [some "bench".toList, some "--nrep".toList] } := by
  decide

end ReproMPI.Bench
