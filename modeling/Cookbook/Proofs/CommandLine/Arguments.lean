import Cookbook.Options

/-!
# Cookbook.Proofs.CommandLine.Arguments

What the arguments of a command line come to (`parse_eq_ok_iff_asked`).

Arguments are grouped first: an option that takes a value stands together with the
argument behind it, whatever that is (`Argument.group`).  Reading them is noting one
group after the other (`withArguments_eq`).  A group that makes sense can always be
noted, but a recipe only as long as none was noted whose path is not empty; what is
noted in the end is then told by the last path and the last value of each option
(`foldlM_note_eq_ok_iff`).
-/

namespace Cookbook

/-! ## Arguments in a row -/

namespace Options

variable {o o' : Options} {args : List Text}

/-- Arguments behind others are noted down behind them. -/
theorem withArguments_append (h : o.withArguments args = .ok o') (rest : List Text) :
    o.withArguments (args ++ rest) = o'.withArguments rest := by
  fun_induction withArguments o args with
  | case1 o =>
    cases h
    rfl
  | case4 o arg hvalue value args o₁ hnoted ih =>
    rw [List.cons_append, List.cons_append, withArguments]
    simp only [hvalue, if_true, hnoted]
    exact ih h
  | case6 o arg args hvalue o₁ hnoted ih =>
    rw [List.cons_append, withArguments.eq_def]
    simp only [hvalue, Bool.false_eq_true, if_false, hnoted]
    exact ih h
  | case2 | case3 | case5 => cases h

end Options

/-! ## Groups of arguments -/

/-- The options that take a value. -/
inductive ValueOption where
  | input
  | seed
  | maxDepth
deriving DecidableEq

namespace ValueOption

/-- How an option is written. -/
def name : ValueOption → Text
  | input => "--input"
  | seed => "--seed"
  | maxDepth => "--max-depth"

/-- The option that is written in a way. -/
def ofName? (arg : Text) : Option ValueOption := [input, seed, maxDepth].find? (arg = ·.name)

variable {option : ValueOption} {arg : Text}

theorem eq_name_of_ofName? (h : ofName? arg = some option) : arg = option.name := by
  simpa using List.find?_some h

theorem takesValue_eq (arg : Text) : Options.takesValue arg = (ofName? arg).isSome := by
  have hnames : Options.takesValue arg ↔
      arg = input.name ∨ arg = seed.name ∨ arg = maxDepth.name := by
    simp [Options.takesValue, name, or_assoc]
  rw [Bool.eq_iff_iff, hnames, ofName?, List.find?_isSome]
  simp

end ValueOption

/-- What an argument stands for, an option together with its value. -/
inductive Argument where
  | help
  | dump
  | valued (option : ValueOption) (value : Text)
  /-- An option that takes a value and is the last argument. -/
  | incomplete (option : ValueOption)
  | unknown (option : Text)
  | positional (path : Text)
deriving DecidableEq

namespace Argument

/-- What an argument stands for that takes no value. -/
def alone (arg : Text) : Argument :=
  if arg = "--help" ∨ arg = "-h" then help
  else if arg = "--dump" then dump
  else if arg.head? = some 45 ∧ 1 < arg.length then unknown arg
  else positional arg

/-- Groups arguments from left to right. -/
def group : List Text → List Argument
  | [] => []
  | arg :: rest =>
    match ValueOption.ofName? arg with
    | none => alone arg :: group rest
    | some option =>
      match rest with
      | [] => [incomplete option]
      | value :: rest' => valued option value :: group rest'

theorem group_valued (option : ValueOption) (value : Text) (rest : List Text) :
    group (option.name :: value :: rest) = valued option value :: group rest := by
  cases option <;> rfl

/-- Notes down what an argument stands for. -/
def note (o : Options) : Argument → Except OptionError Options
  | help => .ok { o with help := true }
  | dump => .ok { o with dump := true }
  | valued option value => o.withValue option.name value
  | incomplete option => .error (.needsValue option.name)
  | unknown option => .error (.unknownOption option)
  | positional path =>
    if o.recipePath.isEmpty then .ok { o with recipePath := path } else .error .secondRecipe

theorem note_alone (o : Options) (arg : Text) : note o (alone arg) = o.withArgument arg := by
  simp only [alone, apply_ite (note o)]
  rfl

/-- Reading arguments is noting down one after the other what they stand for. -/
theorem withArguments_eq (o : Options) (args : List Text) :
    o.withArguments args = (group args).foldlM note o := by
  fun_induction group args generalizing o with
  | case1 => rfl
  | case2 arg rest halone ih =>
    rw [Options.withArguments.eq_def]
    simp only [ValueOption.takesValue_eq, halone, Option.isSome_none, Bool.false_eq_true,
      if_false, ih]
    rw [List.foldlM_cons, note_alone]
    cases o.withArgument arg <;> rfl
  | case3 arg option hoption =>
    simp only [Options.withArguments, ValueOption.takesValue_eq, hoption, Option.isSome_some,
      if_true]
    rw [ValueOption.eq_name_of_ofName? hoption]
    rfl
  | case4 arg option hoption value rest ih =>
    simp only [Options.withArguments, ValueOption.takesValue_eq, hoption, Option.isSome_some,
      if_true, ih]
    rw [List.foldlM_cons, note, ← ValueOption.eq_name_of_ofName? hoption]
    cases o.withValue arg value <;> rfl

/-! ## What is asked for -/

/-- Whether an argument makes sense by itself. -/
def Sensible : Argument → Prop
  | valued .input _ => True
  | valued .seed value | valued .maxDepth value => (Options.number? value).isSome
  | incomplete _ | unknown _ => False
  | help | dump | positional _ => True

instance : DecidablePred Sensible
  | valued .input _ | help | dump | positional _ => isTrue trivial
  | valued .seed value | valued .maxDepth value =>
    inferInstanceAs (Decidable (Options.number? value).isSome)
  | incomplete _ | unknown _ => isFalse id

/-- The path that an argument is. -/
def path? : Argument → Option Text
  | positional path => some path
  | _ => none

/-- The value that an argument gives to an option. -/
def value? (option : ValueOption) : Argument → Option Text
  | valued o value => if o = option then some value else none
  | _ => none

/-- The number that an argument gives to an option. -/
def number? (option : ValueOption) (a : Argument) : Option UInt32 :=
  (a.value? option).bind Options.number?

/-- The paths among some arguments. -/
def paths (as : List Argument) : List Text := as.filterMap path?

/-- What is noted down behind some arguments: the last path, the last value of each
option, and what was noted before where there is none. -/
def noted (as : List Argument) (o : Options) : Options where
  recipePath := (paths as).getLastD o.recipePath
  inputPath := (as.filterMap (value? .input)).getLastD o.inputPath
  seed := (as.filterMap (number? .seed)).getLast?.or o.seed
  maxDepth := (as.filterMap (number? .maxDepth)).getLastD o.maxDepth
  dump := o.dump || decide (dump ∈ as)
  help := o.help || decide (help ∈ as)

section

variable {o o' : Options} {a : Argument} {as : List Argument}

theorem getLast?_filterMap_cons {α β : Type} (f : α → Option β) (a : α) (as : List α) :
    ((a :: as).filterMap f).getLast? = (as.filterMap f).getLast?.or (f a) := by
  cases hf : f a <;> simp [hf, List.getLast?_cons]

/-- Noting in one go is noting step by step. -/
theorem noted_cons (o : Options) (a : Argument) (as : List Argument) :
    noted (a :: as) o = noted as (noted [a] o) := by
  simp only [noted, paths, List.getLastD_eq_getLast?, getLast?_filterMap_cons,
    List.filterMap_nil, List.getLast?_nil, Option.none_or, Option.getD_or, Option.or_assoc,
    List.mem_cons, List.not_mem_nil, or_false, Bool.decide_or, Bool.or_assoc]

theorem noted_singleton (a : Argument) (o : Options) : noted [a] o =
    { recipePath := a.path?.getD o.recipePath
      inputPath := (a.value? .input).getD o.inputPath
      seed := (a.number? .seed).or o.seed
      maxDepth := (a.number? .maxDepth).getD o.maxDepth
      dump := o.dump || decide (dump = a)
      help := o.help || decide (help = a) } := by
  simp only [noted, paths, List.getLastD_eq_getLast?, getLast?_filterMap_cons,
    List.filterMap_nil, List.getLast?_nil, Option.none_or, List.mem_singleton]

theorem note_valued_input (o : Options) (value : Text) :
    note o (valued .input value) = .ok { o with inputPath := value } := by
  rw [note, Options.withValue]
  exact if_pos rfl

/-- A number that is given to an option is noted, anything else is refused. -/
theorem note_valued_seed (o : Options) (value : Text) : note o (valued .seed value) =
    (Options.number ValueOption.seed.name value).map fun n => { o with seed := some n } := by
  rw [note, Options.withValue, if_neg (by decide)]
  exact if_pos rfl

theorem note_valued_maxDepth (o : Options) (value : Text) : note o (valued .maxDepth value) =
    (Options.number ValueOption.maxDepth.name value).map fun n => { o with maxDepth := n } := by
  rw [note, Options.withValue, if_neg (by decide), if_neg (by decide)]

/-- An argument that makes sense can be noted, but a path only if there is none
before that is not empty. -/
theorem note_eq_ok_iff : note o a = .ok o' ↔
    a.Sensible ∧ (a.path?.isSome → o.recipePath = []) ∧ noted [a] o = o' := by
  rw [noted_singleton]
  cases a with
  | help => simp [note, Sensible, path?, value?, number?]
  | dump => simp [note, Sensible, path?, value?, number?]
  | incomplete option => simp [note, Sensible]
  | unknown option => simp [note, Sensible]
  | positional path =>
    by_cases hnone : o.recipePath = [] <;>
      simp [note, hnone, Sensible, path?, value?, number?]
  | valued option value =>
    cases option with
    | input => simp [note_valued_input, Sensible, path?, value?, number?]
    | seed =>
      rw [note_valued_seed, Options.number]
      cases hn : Options.number? value <;>
        simp [Sensible, path?, value?, number?, hn, Except.map]
    | maxDepth =>
      rw [note_valued_maxDepth, Options.number]
      cases hn : Options.number? value <;>
        simp [Sensible, path?, value?, number?, hn, Except.map]

/-- Of all paths only the one noted last decides whether another may follow. -/
theorem paths_of_noted (o : Options) (a : Argument) (as : List Argument) :
    (∀ path ∈ (o.recipePath :: paths (a :: as)).dropLast, path = []) ↔
      (a.path?.isSome → o.recipePath = []) ∧
        ∀ path ∈ ((noted [a] o).recipePath :: paths as).dropLast, path = [] := by
  rw [noted_singleton, paths, List.filterMap_cons]
  cases hpath : a.path? with
  | none => simp [paths]
  | some path => simp [paths]

/-- Arguments can be noted that all make sense, as long as no path that is not empty
has another one behind it. -/
theorem foldlM_note_eq_ok_iff : as.foldlM note o = .ok o' ↔
    (∀ a ∈ as, a.Sensible) ∧ (∀ path ∈ (o.recipePath :: paths as).dropLast, path = []) ∧
      noted as o = o' := by
  induction as generalizing o with
  | nil => simp [noted, paths, pure, Except.pure]
  | cons a as ih =>
    rw [noted_cons, paths_of_noted, List.forall_mem_cons]
    have hstep : (a :: as).foldlM note o = .ok o' ↔
        ∃ o₁, note o a = .ok o₁ ∧ as.foldlM note o₁ = .ok o' := by
      rw [List.foldlM_cons]
      cases note o a <;> simp [bind, Except.bind]
    rw [hstep]
    simp only [note_eq_ok_iff, ih, and_assoc, exists_and_left, exists_eq_left']
    exact and_congr_right fun _ => and_left_comm

end

end Argument

/-! ## What a command line comes to -/

theorem parse_eq_ok_iff {args : List Text} {o : Options} : Options.parse args = .ok o ↔
    ({} : Options).withArguments args = .ok o ∧ (o.recipePath ≠ [] ∨ o.help) := by
  rw [Options.parse]
  cases ({} : Options).withArguments args with
  | error e => simp
  | ok o₁ =>
    by_cases hneeded : o₁.recipePath.isEmpty && !o₁.help
    · simp only [hneeded, if_true, reduceCtorEq, false_iff, Except.ok.injEq]
      rintro ⟨rfl, hasked⟩
      simp_all
    · simp only [hneeded, if_false, Except.ok.injEq, Bool.false_eq_true]
      refine ⟨?_, And.left⟩
      rintro rfl
      simp_all [Decidable.imp_iff_not_or]

/-- Among paths that are all counted, no two stand behind each other. -/
theorem at_most_one_iff {ps : List Text} (hcounted : [] ∉ ps) (asked : Prop) :
    ((∀ path ∈ ps.dropLast, path = []) ∧ (ps.getLastD [] ≠ [] ∨ asked)) ↔
      (∃ path, ps = [path]) ∨ ps = [] ∧ asked := by
  rcases ps with _ | ⟨path, _ | ⟨second, rest⟩⟩
  · simp
  · have hpath : path ≠ [] := fun h => hcounted (by simp [h])
    simp [hpath]
  · have hpath : path ≠ [] := fun h => hcounted (by simp [h])
    simp [hpath]

section

open Argument

/-- A command line is accepted when each of its arguments makes sense, no path that is
not empty has another one behind it, and the last path is not empty or help is asked for.
So where no path is empty it has exactly one, or none and help is asked for.  It then comes
to the path, the last value of each option and the defaults. -/
theorem parse_eq_ok_iff_asked (args : List Text) (o : Options) :
    (Options.parse args = .ok o ↔
      (∀ a ∈ group args, a.Sensible) ∧
        (∀ path ∈ (paths (group args)).dropLast, path = []) ∧
        ((paths (group args)).getLastD [] ≠ [] ∨ help ∈ group args) ∧
        o = noted (group args) {}) ∧
    ([] ∉ paths (group args) →
      (Options.parse args = .ok o ↔
        (∀ a ∈ group args, a.Sensible) ∧
          ((∃ path, paths (group args) = [path]) ∨
            paths (group args) = [] ∧ help ∈ group args) ∧
          o = noted (group args) {})) := by
  have hparse : Options.parse args = .ok o ↔
      (∀ a ∈ group args, a.Sensible) ∧
        (∀ path ∈ (paths (group args)).dropLast, path = []) ∧
        ((paths (group args)).getLastD [] ≠ [] ∨ help ∈ group args) ∧
        o = noted (group args) {} := by
    have hfirst : (∀ path ∈ ([] :: paths (group args)).dropLast, path = []) ↔
        ∀ path ∈ (paths (group args)).dropLast, path = [] := by
      cases paths (group args) <;> simp
    have hasked : (noted (group args) {}).recipePath ≠ [] ∨ (noted (group args) {}).help ↔
        (paths (group args)).getLastD [] ≠ [] ∨ help ∈ group args := by
      simp only [noted, Bool.false_or, decide_eq_true_eq]
    rw [parse_eq_ok_iff, withArguments_eq, foldlM_note_eq_ok_iff, hfirst, ← hasked]
    constructor
    · rintro ⟨⟨hsensible, hpaths, rfl⟩, h⟩
      exact ⟨hsensible, hpaths, h, rfl⟩
    · rintro ⟨hsensible, hpaths, h, rfl⟩
      exact ⟨⟨hsensible, hpaths, rfl⟩, h⟩
  refine ⟨hparse, fun hnonempty => hparse.trans (and_congr_right fun _ => ?_)⟩
  rw [← and_assoc, at_most_one_iff hnonempty]

/-- The last value of an option holds, and what stands behind an option is its value
even if it looks like an option. -/
theorem parse_eq_ok_iff_asked_twice :
    let args : List Text := ["--seed", "1", "--input", "--dump", "roast", "--seed", " 2", "--dump"]
    [] ∉ paths (group args) ∧
      Options.parse args =
        .ok { recipePath := "roast", inputPath := "--dump", seed := some 2, dump := true } :=
  have hnonempty : [] ∉ paths (group
      ["--seed", "1", "--input", "--dump", "roast", "--seed", " 2", "--dump"]) := by
    decide +kernel
  ⟨hnonempty, ((parse_eq_ok_iff_asked _ _).2 hnonempty).2
    ⟨by decide +kernel, .inl ⟨"roast", by decide +kernel⟩, by decide +kernel⟩⟩

/-- An empty path does not count: another may follow it, and alone it is no recipe. -/
theorem empty_path_not_counted :
    (paths (group [[], "roast"]) = [[], "roast"] ∧
      Options.parse [[], "roast"] = .ok { recipePath := "roast" }) ∧
    paths (group [[]]) = [[]] ∧ Options.parse [[]] = .error .noRecipe :=
  ⟨⟨by decide +kernel, rfl⟩, by decide +kernel, rfl⟩

end

end Cookbook
