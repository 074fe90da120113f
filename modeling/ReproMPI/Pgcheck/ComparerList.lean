import Mathlib.Tactic
import ReproMPI.Lib.Destutter
import ReproMPI.Pgcheck.Options

/-!
# The comparers a command line asks for

`parse` collects the numbers of all `-c` options in one list, removes neighbouring duplicates
and sorts what is left. `std::unique` runs before `std::sort`: a comparer that is given again
after another one stays in the list twice.
-/

namespace ReproMPI.Pgcheck

open CString Destutter

/-- The comparers one option asks for. -/
def Opt.comparers : Opt → Option (List ℤ)
  | .compList optarg => pushComparers [] optarg
  | _ => some []

/-- The comparers of all options, in the order in which they are given. -/
def givenComparers : List Opt → Option (List ℤ)
  | [] => some []
  | opt :: opts => do
    let ids ← opt.comparers
    let rest ← givenComparers opts
    some (ids ++ rest)

/-- The options `getopt_long` recognized and `parse` does not stop at. -/
def Opt.Recognized (opt : Opt) : Prop :=
  opt ≠ .help ∧ opt ≠ .unknown ∧ opt ≠ .missingArgument

/-- A number `ComparerFactory` has a comparer for. -/
def IsComparer (id : ℤ) : Prop := 0 ≤ id ∧ id < getNumberOfComparers

/-! ## What the options leave in the list -/

theorem pushComparers_eq (comparerList : List ℤ) (s : List Char) :
    pushComparers comparerList s = (pushComparers [] s).map (comparerList ++ ·) := by
  simp only [pushComparers]
  simp only [Option.bind_eq_bind, List.nil_append]
  cases ((s.splitOn ',').dropLast ++
    if ((s.splitOn ',').getLastD []).isEmpty then [] else [(s.splitOn ',').getLastD []]).mapM
      stoi <;> rfl

/-- A list of comparers passes the check. -/
theorem comparersInvalid_eq_false {comparerList : List ℤ} {invalid : Bool}
    (h : comparersInvalid comparerList = some invalid)
    (hids : ∀ x ∈ comparerList, IsComparer x) : invalid = false := by
  rw [comparersInvalid] at h
  obtain ⟨minElem, hmin, h⟩ := Option.bind_eq_some_iff.mp h
  obtain ⟨maxElem, hmax, h⟩ := Option.bind_eq_some_iff.mp h
  obtain ⟨hlow, -⟩ := hids minElem (List.min?_mem hmin)
  obtain ⟨-, hhigh⟩ := hids maxElem (List.max?_mem hmax)
  rw [← Option.some.inj h, Bool.or_eq_false_iff]
  exact ⟨decide_eq_false (not_lt.mpr hlow), decide_eq_false (not_le.mpr hhigh)⟩

/-- One option appends its comparers and is not rejected. -/
theorem parseOption_comparerList {isRoot : Bool} {o o' : Options} {opt : Opt} {status : Status}
    {ids : List ℤ} (h : parseOption isRoot o opt = some (o', status)) (hopt : opt.Recognized)
    (hids : opt.comparers = some ids) (hvalid : ∀ x ∈ o.comparerList ++ ids, IsComparer x) :
    status = .success ∧ o'.comparerList = o.comparerList ++ ids := by
  obtain ⟨hhelp, hunknown, hmissing⟩ := hopt
  cases opt with
  | help => exact absurd rfl hhelp
  | unknown => exact absurd rfl hunknown
  | missingArgument => exact absurd rfl hmissing
  | compList optarg =>
    have hpush : pushComparers o.comparerList optarg = some (o.comparerList ++ ids) := by
      have hids' : pushComparers [] optarg = some ids := hids
      rw [pushComparers_eq, hids', Option.map_some]
    simp only [parseOption, hpush, Option.bind_eq_bind, Option.bind_some] at h
    obtain ⟨invalid, hinvalid, h⟩ := Option.bind_eq_some_iff.mp h
    obtain rfl := comparersInvalid_eq_false hinvalid hvalid
    obtain ⟨rfl, rfl⟩ := Prod.mk.inj (Option.some.inj h)
    exact ⟨rfl, rfl⟩
  | test optarg =>
    obtain ⟨testType, -, h⟩ := Option.bind_eq_some_iff.mp h
    obtain ⟨rfl, rfl⟩ := Prod.mk.inj (Option.some.inj h)
    obtain rfl : [] = ids := Option.some.inj hids
    exact ⟨rfl, (List.append_nil _).symm⟩
  | _ =>
    obtain ⟨rfl, rfl⟩ := Prod.mk.inj (Option.some.inj h)
    obtain rfl : [] = ids := Option.some.inj hids
    exact ⟨rfl, (List.append_nil _).symm⟩

/-- All options together append all comparers. -/
theorem parseOptions_comparerList {isRoot : Bool} {opts : List Opt} {o o' : Options}
    {status : Status} {ids : List ℤ} (h : parseOptions isRoot o opts = some (o', status))
    (hopts : ∀ opt ∈ opts, opt.Recognized) (hids : givenComparers opts = some ids)
    (hvalid : ∀ x ∈ o.comparerList ++ ids, IsComparer x) :
    status = .success ∧ o'.comparerList = o.comparerList ++ ids := by
  induction opts generalizing o ids with
  | nil =>
    obtain ⟨rfl, rfl⟩ := Prod.mk.inj (Option.some.inj h)
    obtain rfl : [] = ids := Option.some.inj hids
    exact ⟨rfl, (List.append_nil _).symm⟩
  | cons opt opts ih =>
    obtain ⟨first, hfirst, hids⟩ := Option.bind_eq_some_iff.mp hids
    obtain ⟨rest, hrest, hids⟩ := Option.bind_eq_some_iff.mp hids
    obtain rfl := Option.some.inj hids
    rw [← List.append_assoc] at hvalid
    obtain ⟨⟨next, s⟩, hopt, h⟩ := Option.bind_eq_some_iff.mp h
    obtain ⟨rfl, hnext⟩ := parseOption_comparerList hopt (hopts opt List.mem_cons_self) hfirst
      fun x hx => hvalid x (List.mem_append_left _ hx)
    rw [← hnext] at hvalid
    obtain ⟨hstatus, hlist⟩ := ih h (fun opt' h' => hopts opt' (List.mem_cons_of_mem _ h'))
      hrest hvalid
    exact ⟨hstatus, by rw [hlist, hnext, List.append_assoc]⟩

/-- The list after `parse` is the sorted list of all given comparers. -/
theorem parse_comparerList {fs : FileSystem} {isRoot : Bool} {opts : List Opt} {o : Options}
    {status : Status} {ids : List ℤ} (h : parse fs isRoot opts = some (o, status))
    (hopts : ∀ opt ∈ opts, opt.Recognized) (hids : givenComparers opts = some ids)
    (hvalid : ∀ x ∈ ids, IsComparer x) : o.comparerList = sortComparers ids := by
  obtain ⟨⟨o', s⟩, hparse, h⟩ := Option.bind_eq_some_iff.mp h
  obtain ⟨rfl, hlist⟩ := parseOptions_comparerList hparse hopts hids hvalid
  obtain hlist : o'.comparerList = ids := hlist
  cases isRoot with
  | true =>
    obtain ⟨s', -, h⟩ := Option.bind_eq_some_iff.mp h
    rw [← (Prod.mk.inj (Option.some.inj h)).1, ← hlist]
  | false => rw [← (Prod.mk.inj (Option.some.inj h)).1, ← hlist]

/-! ## Command lines that are read to the end -/

/-- An option whose argument `parse` can read: a `-t` needs a number that is an `int`, a `-c`
at least one. -/
def Opt.Readable : Opt → Prop
  | .test optarg => ∃ testType, atoi optarg = some testType
  | .compList optarg => ∃ ids, pushComparers [] optarg = some ids ∧ ids ≠ []
  | _ => True

theorem exists_comparersInvalid {comparerList : List ℤ} (hne : comparerList ≠ []) :
    ∃ invalid, comparersInvalid comparerList = some invalid := by
  rw [comparersInvalid]
  rw [List.min?_eq_some_min hne, List.max?_eq_some_max hne]
  exact ⟨_, rfl⟩

theorem exists_parseOption {isRoot : Bool} {opt : Opt} (h : opt.Readable) (o : Options) :
    ∃ res, parseOption isRoot o opt = some res := by
  cases opt with
  | test optarg =>
    obtain ⟨testType, htest⟩ := h
    exact ⟨_, Option.bind_eq_some_iff.mpr ⟨testType, htest, rfl⟩⟩
  | compList optarg =>
    obtain ⟨ids, hids, hne⟩ := h
    have hpush : pushComparers o.comparerList optarg = some (o.comparerList ++ ids) := by
      rw [pushComparers_eq, hids, Option.map_some]
    obtain ⟨invalid, hinvalid⟩ :=
      exists_comparersInvalid (List.append_ne_nil_of_right_ne_nil o.comparerList hne)
    simp only [parseOption, hpush, hinvalid, Option.bind_eq_bind, Option.bind_some]
    split
    · exact ⟨_, rfl⟩
    · exact ⟨_, rfl⟩
  | _ => exact ⟨_, rfl⟩

theorem exists_parseOptions (isRoot : Bool) {opts : List Opt} (h : ∀ opt ∈ opts, opt.Readable)
    (o : Options) : ∃ res, parseOptions isRoot o opts = some res := by
  induction opts generalizing o with
  | nil => exact ⟨_, rfl⟩
  | cons opt opts ih =>
    obtain ⟨⟨next, status⟩, hopt⟩ := exists_parseOption (h opt List.mem_cons_self) o
    cases status with
    | failure => exact ⟨_, Option.bind_eq_some_iff.mpr ⟨_, hopt, rfl⟩⟩
    | success =>
      obtain ⟨res, hres⟩ := ih (fun opt' h' => h opt' (List.mem_cons_of_mem _ h')) next
      exact ⟨res, Option.bind_eq_some_iff.mpr ⟨_, hopt, hres⟩⟩

/-- `parse` returns, on every rank, if the file system lets it. -/
theorem exists_parse {fs : FileSystem} {isRoot : Bool} {opts : List Opt}
    (hopts : ∀ opt ∈ opts, opt.Readable) (hfs : ∀ path, fs.createDirectory path ≠ none) :
    ∃ res, parse fs isRoot opts = some res := by
  obtain ⟨⟨o, status⟩, hparse⟩ := exists_parseOptions isRoot hopts {}
  have hcheck : ∀ o, ∃ s, checkOutput fs o = some s := by
    intro o
    obtain ⟨b, hb⟩ := Option.ne_none_iff_exists'.mp (hfs o.outputDirectory)
    rw [checkOutput]
    rw [hb, Option.map_some]
    split_ifs <;> exact ⟨_, rfl⟩
  rw [parse]
  rw [hparse]
  cases status with
  | failure => exact ⟨_, rfl⟩
  | success =>
    cases isRoot with
    | false => exact ⟨_, rfl⟩
    | true =>
      obtain ⟨s, hs⟩ := hcheck { o with comparerList := sortComparers o.comparerList }
      simp only [Option.bind_eq_bind, Option.bind_some, if_true, hs]
      exact ⟨_, rfl⟩

/-! ## The list without duplicates -/

/-- A list of one element has nothing to sort or remove. -/
theorem sortComparers_eq {ids : List ℤ} (hne : ids ≠ []) :
    sortComparers ids = (ids.destutter (· ≠ ·)).insertionSort (· ≤ ·) := by
  obtain ⟨x, ids, rfl⟩ := List.exists_cons_of_ne_nil hne
  cases ids with
  | nil => rfl
  | cons y ids => rfl

theorem mem_sortComparers {ids : List ℤ} (hne : ids ≠ []) {x : ℤ} :
    x ∈ sortComparers ids ↔ x ∈ ids := by
  rw [sortComparers_eq hne, List.mem_insertionSort, mem_destutter_ne]

theorem pairwise_lt_sortComparers_iff {ids : List ℤ} (hne : ids ≠ []) :
    (sortComparers ids).Pairwise (· < ·) ↔ Consecutive ids := by
  rw [sortComparers_eq hne, pairwise_lt_insertionSort_iff, nodup_destutter_ne_iff]

/-- The list increases strictly and holds the given comparers exactly when the repetitions of
a comparer are given one after the other. No comparer is lost or added in any case. -/
theorem parse_comparerList_sorted_iff {fs : FileSystem} {isRoot : Bool} {opts : List Opt}
    {o : Options} {status : Status} {ids : List ℤ}
    (h : parse fs isRoot opts = some (o, status)) (hopts : ∀ opt ∈ opts, opt.Recognized)
    (hids : givenComparers opts = some ids) (hne : ids ≠ [])
    (hvalid : ∀ x ∈ ids, IsComparer x) :
    (o.comparerList.Pairwise (· < ·) ∧ ∀ x, x ∈ o.comparerList ↔ x ∈ ids) ↔
      Consecutive ids := by
  rw [parse_comparerList h hopts hids hvalid, pairwise_lt_sortComparers_iff hne]
  exact and_iff_left fun x => mem_sortComparers hne

/-- A file system in which every directory exists. -/
def existing : FileSystem := ⟨fun _ => true, fun _ => some true⟩

/-- `pgchecker -o out -c 1,1 -c 2`: the repetition stands next to the first one. -/
theorem adjacent_comparers_sorted :
    parse existing true [.output ['o'], .compList ['1', ',', '1'], .compList ['2']] =
        some ({ outputDirectory := ['o'], comparerList := [1, 2] }, .success) ∧
      (([1, 2] : List ℤ).Pairwise (· < ·) ∧ ∀ x : ℤ, x ∈ [1, 2] ↔ x ∈ [1, 1, 2]) := by
  have hparse : parse existing true
      [.output ['o'], .compList ['1', ',', '1'], .compList ['2']] =
        some ({ outputDirectory := ['o'], comparerList := [1, 2] }, .success) := by
    decide
  have hopts : ∀ opt ∈ [Opt.output ['o'], .compList ['1', ',', '1'], .compList ['2']],
      opt.Recognized := by
    simp [Opt.Recognized]
  have hids : givenComparers [.output ['o'], .compList ['1', ',', '1'], .compList ['2']] =
      some [1, 1, 2] := by
    decide
  have hvalid : ∀ x ∈ ([1, 1, 2] : List ℤ), IsComparer x := by
    simp [IsComparer, getNumberOfComparers]
  have hconsecutive : Consecutive ([1, 1, 2] : List ℤ) :=
    nodup_destutter_ne_iff.mp (by decide)
  exact ⟨hparse, (parse_comparerList_sorted_iff hparse hopts hids (by decide) hvalid).mpr
    hconsecutive⟩

/-- `pgchecker -o out -c 1,2,1`: the list is `[1, 1, 2]`. -/
theorem repeated_comparer_kept :
    givenComparers [.output ['o'], .compList ['1', ',', '2', ',', '1']] = some [1, 2, 1] ∧
      parse existing true [.output ['o'], .compList ['1', ',', '2', ',', '1']] =
        some ({ outputDirectory := ['o'], comparerList := [1, 1, 2] }, .success) ∧
      ¬ ([1, 1, 2] : List ℤ).Pairwise (· < ·) := by
  decide

end ReproMPI.Pgcheck
