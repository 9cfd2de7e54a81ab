import Cookbook.CommandLine
import Cookbook.Proofs.CommandLine.Arguments
import Cookbook.Proofs.Cooking.Fuel

/-!
# Cookbook.Proofs.CommandLine.EndToEnd

The program at a command line is the library run from end to end
(`run_iff_reports`).

`CommandLine.Reports` says what a command line is to show in terms of the library
alone.  A command line is refused, asks for help or orders something to be cooked
(`CommandLine.Orders`); an order is shown as reading the book, making a program of
it and cooking that turn out (`CommandLine.Shows`).  How long the cooking takes
is left open there (`Program.Ends`): a run shows a report with some amount of
fuel exactly if this is the report that is asked for, and no other amount shows
another one.
-/

namespace Cookbook

open Text

/-! ## Arguments -/

namespace Options

/-- An input path behind all other arguments is noted down. -/
theorem withArguments_append_input {o o' : Options} {args : List Text} (path : Text)
    (h : o.withArguments args = .ok o') :
    o.withArguments (args ++ [ofString "--input", path]) = .ok { o' with inputPath := path } := by
  rw [withArguments_append h]
  simp [withArguments, takesValue, withValue]

theorem parse_append_input {o : Options} {args : List Text} (path : Text)
    (h : parse args = .ok o) :
    parse (args ++ [ofString "--input", path]) = .ok { o with inputPath := path } := by
  unfold parse at h ⊢
  cases hargs : ({} : Options).withArguments args with
  | error e => simp [hargs] at h
  | ok o₁ =>
    simp only [hargs, withArguments_append_input path hargs] at h ⊢
    split at h
    · cases h
    · next hrecipe =>
      cases h
      rw [if_neg hrecipe]

end Options

namespace CommandLine

/-! ## What a run is to show -/

/-- Whether a command line cannot be followed: its arguments make no sense, or a
path that is needed cannot be opened. -/
def Refused (args : List Text) (open? : Text → Option Source) : Prop :=
  (∃ e, Options.parse args = .error e) ∨
    ∃ o, Options.parse args = .ok o ∧ o.help = false ∧
      (open? o.recipePath = none ∨ o.inputPath ≠ [] ∧ open? o.inputPath = none)

/-- Whether a command line has a recipe cooked: with which options, from which
book and with which refrigerator. -/
structure Orders (args : List Text) (open? : Text → Option Source) (stdin : Text) (o : Options)
    (book : Text) (r : Refrigerator) : Prop where
  parse : Options.parse args = .ok o
  help : o.help = false
  book : (open? o.recipePath).map Source.book = some book
  refrigerator : (if o.inputPath = [] then some (.stocked stdin)
    else (open? o.inputPath).map Source.refrigerator) = some r

/-- The line that says why cooking failed, if it did. -/
def failureLine (o : Options) : Ending → Text
  | .failed e => "\nFailed to cook " ++ o.recipePath ++ ": " ++ e.message ++ "\n"
  | _ => []

theorem failureLine_done (o : Options) : failureLine o .done = [] := rfl

/-- What an order shows.  A book that cannot be read or made a program of is not
cooked; a program is listed before it is cooked, and what it serves is shown even if
it fails in the end. -/
inductive Shows (o : Options) (book : Text) (r : Refrigerator) (seed : UInt32) : Report → Prop where
  | unreadable {e : ParseError} (h : Draft.parse book = .error e) :
    Shows o book r seed
      { status := 1, err := e.message ++ "\nFailed to parse " ++ o.recipePath ++ "\n" }
  | unfit {drafts : List Draft} {e : BuildError} (hread : Draft.parse book = .ok drafts)
    (h : Program.ofDrafts drafts = .error e) :
    Shows o book r seed
      { status := 1, err := "Failed to build " ++ o.recipePath ++ ": " ++ e.message ++ "\n" }
  | cooked {drafts : List Draft} {p : Program} {ending : Ending} {k : Kitchen}
    (hread : Draft.parse book = .ok drafts) (hbuilt : Program.ofDrafts drafts = .ok p)
    (h : p.Ends o.maxDepth (Kitchen.prepare r (o.seed.getD seed)) ending k) :
    Shows o book r seed
      { status := if ending = .done then 0 else 1
        out := k.served.toList
        err := (if o.dump then p.listing else []) ++ failureLine o ending }

/-- What a command line shows.  The seed is used if the arguments give none. -/
inductive Reports (args : List Text) (open? : Text → Option Source) (stdin : Text) (seed : UInt32) :
    Report → Prop where
  | misused {e : OptionError} (h : Options.parse args = .error e) :
    Reports args open? stdin seed { status := 2, err := e.message ++ "\n" ++ Options.usage }
  | help {o : Options} (h : Options.parse args = .ok o) (hhelp : o.help) :
    Reports args open? stdin seed { status := 0, out := Options.usage }
  | noRecipe {o : Options} (h : Options.parse args = .ok o) (hhelp : o.help = false)
    (hrecipe : open? o.recipePath = none) :
    Reports args open? stdin seed
      { status := 2, err := "Could not open recipe " ++ o.recipePath ++ "\n" }
  | noInput {o : Options} {source : Source} (h : Options.parse args = .ok o)
    (hhelp : o.help = false) (hrecipe : open? o.recipePath = some source) (hpath : o.inputPath ≠ [])
    (hinput : open? o.inputPath = none) :
    Reports args open? stdin seed
      { status := 2, err := "Could not open input " ++ o.inputPath ++ "\n" }
  | ordered {o : Options} {book : Text} {r : Refrigerator} {report : Report}
    (h : Orders args open? stdin o book r) (hshows : Shows o book r seed report) :
    Reports args open? stdin seed report

/-! ## What a run shows -/

section

variable {args args' : List Text} {open? : Text → Option Source} {stdin : Text} {seed : UInt32}
  {fuel fuel' : Nat} {o : Options} {book : Text} {r : Refrigerator} {report report' : Report}

/-- Cooking an order shows what the order asks for. -/
theorem shows_of_cook (h : cook o book r seed fuel = some report) : Shows o book r seed report := by
  unfold cook Program.ofText at h
  cases hread : Draft.parse book with
  | error e =>
    simp only [hread, Option.some.injEq] at h
    exact h ▸ .unreadable hread
  | ok drafts =>
    cases hbuilt : Program.ofDrafts drafts with
    | error e =>
      simp only [hread, hbuilt, Option.some.injEq] at h
      exact h ▸ .unfit hread hbuilt
    | ok p =>
      simp only [hread, hbuilt] at h
      cases hrun : p.run o.maxDepth fuel (Kitchen.prepare r (o.seed.getD seed)) with
      | mk ending k =>
        rw [hrun] at h
        cases ending with
        | done =>
          have hcooked := Shows.cooked hread hbuilt ⟨by simp, fuel, hrun⟩
          rw [failureLine_done, List.append_nil] at hcooked
          exact Option.some.inj h ▸ hcooked
        | failed e => exact Option.some.inj h ▸ .cooked hread hbuilt ⟨by simp, fuel, hrun⟩
        | starved => cases h

theorem exists_cook_of_shows (h : Shows o book r seed report) :
    ∃ fuel, cook o book r seed fuel = some report := by
  cases h with
  | unreadable h => exact ⟨0, by simp only [cook, Program.ofText, h]⟩
  | unfit hread h => exact ⟨0, by simp only [cook, Program.ofText, hread, h]⟩
  | @cooked drafts p ending k hread hbuilt h =>
    obtain ⟨fuel, hrun⟩ := h.run
    refine ⟨fuel, ?_⟩
    simp only [cook, Program.ofText, hread, hbuilt, hrun]
    cases ending with
    | done => rw [failureLine_done, List.append_nil, if_pos rfl]
    | failed e => rfl
    | starved => exact absurd rfl h.fed

theorem cook_mono (hle : fuel ≤ fuel') (h : cook o book r seed fuel = some report) :
    cook o book r seed fuel' = some report := by
  unfold cook at h ⊢
  cases hload : Program.ofText book with
  | error e =>
    rw [hload] at h
    cases e <;> exact h
  | ok p =>
    simp only [hload] at h ⊢
    rw [Program.run_mono hle ?_]
    · exact h
    · intro hstarved
      cases hrun : p.run o.maxDepth fuel (Kitchen.prepare r (o.seed.getD seed)) with
      | mk ending k =>
        obtain rfl : ending = .starved := by simpa only [hrun] using hstarved
        simp [hrun] at h

theorem run_of_misused {e : OptionError} (h : Options.parse args = .error e) :
    run args open? stdin seed fuel = some (refusal (e.message ++ "\n" ++ Options.usage)) := by
  simp only [run, h]

theorem run_of_help (h : Options.parse args = .ok o) (hhelp : o.help) :
    run args open? stdin seed fuel = some { status := 0, out := Options.usage } := by
  simp only [run, h, hhelp, if_true]

theorem run_of_noRecipe (h : Options.parse args = .ok o) (hhelp : o.help = false)
    (hrecipe : open? o.recipePath = none) :
    run args open? stdin seed fuel =
      some (refusal ("Could not open recipe " ++ o.recipePath ++ "\n")) := by
  simp only [run, h, hhelp, Bool.false_eq_true, if_false, hrecipe]

theorem run_of_noInput {source : Source} (h : Options.parse args = .ok o) (hhelp : o.help = false)
    (hrecipe : open? o.recipePath = some source) (hpath : o.inputPath ≠ [])
    (hinput : open? o.inputPath = none) :
    run args open? stdin seed fuel =
      some (refusal ("Could not open input " ++ o.inputPath ++ "\n")) := by
  simp [run, h, hhelp, hrecipe, hpath, hinput]

/-- An order is cooked. -/
theorem run_of_orders (h : Orders args open? stdin o book r) :
    run args open? stdin seed fuel = cook o book r seed fuel := by
  obtain ⟨recipe, hrecipe, rfl⟩ := Option.map_eq_some_iff.1 h.book
  have hrefrigerator := h.refrigerator
  simp only [run, h.parse, h.help, Bool.false_eq_true, if_false, hrecipe]
  cases hpath : o.inputPath with
  | nil =>
    simp only [hpath, if_true, Option.some.injEq] at hrefrigerator
    simp [hrefrigerator]
  | cons b path =>
    simp only [hpath, List.cons_ne_nil, if_false] at hrefrigerator
    obtain ⟨input, hinput, rfl⟩ := Option.map_eq_some_iff.1 hrefrigerator
    simp [hinput]

/-- A run shows what the command line asks for. -/
theorem reports_of_run (h : run args open? stdin seed fuel = some report) :
    Reports args open? stdin seed report := by
  cases hparse : Options.parse args with
  | error e =>
    rw [run_of_misused hparse, Option.some.injEq] at h
    exact h ▸ .misused hparse
  | ok o =>
    cases hhelp : o.help with
    | true =>
      rw [run_of_help hparse hhelp, Option.some.injEq] at h
      exact h ▸ .help hparse hhelp
    | false =>
      cases hrecipe : open? o.recipePath with
      | none =>
        rw [run_of_noRecipe hparse hhelp hrecipe, Option.some.injEq] at h
        exact h ▸ .noRecipe hparse hhelp hrecipe
      | some recipe =>
        by_cases hpath : o.inputPath = []
        · have horders : Orders args open? stdin o recipe.book (.stocked stdin) :=
            ⟨hparse, hhelp, by rw [hrecipe]; rfl, if_pos hpath⟩
          exact .ordered horders (shows_of_cook (run_of_orders horders ▸ h))
        · cases hinput : open? o.inputPath with
          | none =>
            rw [run_of_noInput hparse hhelp hrecipe hpath hinput, Option.some.injEq] at h
            exact h ▸ .noInput hparse hhelp hrecipe hpath hinput
          | some input =>
            have horders : Orders args open? stdin o recipe.book input.refrigerator :=
              ⟨hparse, hhelp, by rw [hrecipe]; rfl, by rw [if_neg hpath, hinput]; rfl⟩
            exact .ordered horders (shows_of_cook (run_of_orders horders ▸ h))

theorem exists_run_of_reports (h : Reports args open? stdin seed report) :
    ∃ fuel, run args open? stdin seed fuel = some report := by
  cases h with
  | misused h => exact ⟨0, run_of_misused h⟩
  | help h hhelp => exact ⟨0, run_of_help h hhelp⟩
  | noRecipe h hhelp hrecipe => exact ⟨0, run_of_noRecipe h hhelp hrecipe⟩
  | noInput h hhelp hrecipe hpath hinput => exact ⟨0, run_of_noInput h hhelp hrecipe hpath hinput⟩
  | ordered horders hshows =>
    obtain ⟨fuel, hcook⟩ := exists_cook_of_shows hshows
    exact ⟨fuel, (run_of_orders horders).trans hcook⟩

/-- A run that shows something shows the same with more fuel. -/
theorem run_mono (hle : fuel ≤ fuel') (h : run args open? stdin seed fuel = some report) :
    run args open? stdin seed fuel' = some report := by
  cases reports_of_run h with
  | ordered horders _ =>
    rw [run_of_orders horders] at h ⊢
    exact cook_mono hle h
  | misused hparse => exact run_of_misused hparse
  | help hparse hhelp => exact run_of_help hparse hhelp
  | noRecipe hparse hhelp hrecipe => exact run_of_noRecipe hparse hhelp hrecipe
  | noInput hparse hhelp hrecipe hpath hinput =>
    exact run_of_noInput hparse hhelp hrecipe hpath hinput

/-- Two runs show the same. -/
theorem run_unique (h : run args open? stdin seed fuel = some report)
    (h' : run args open? stdin seed fuel' = some report') : report' = report := by
  have hmax := run_mono (Nat.le_max_left fuel fuel') h
  have hmax' := run_mono (Nat.le_max_right fuel fuel') h'
  exact Option.some.inj (hmax'.symm.trans hmax)

/-! ## Exit status -/

/-- An order can be shown in one way only. -/
theorem shows_of_orders (horders : Orders args open? stdin o book r)
    (h : Reports args open? stdin seed report) : Shows o book r seed report := by
  obtain ⟨fuel, hrun⟩ := exists_run_of_reports h
  exact shows_of_cook (run_of_orders horders ▸ hrun)

/-- An order ends with the status 1 exactly if the book gives no program or the
program fails. -/
theorem status_eq_one_iff (h : Shows o book r seed report) :
    report.status = 1 ↔ (∃ e, Program.ofText book = .error e) ∨
      ∃ p e k, Program.ofText book = .ok p ∧
        p.Ends o.maxDepth (Kitchen.prepare r (o.seed.getD seed)) (.failed e) k := by
  cases h with
  | @unreadable e h =>
    have hload : Program.ofText book = .error (.unreadable e) := by simp only [Program.ofText, h]
    exact iff_of_true rfl (.inl ⟨_, hload⟩)
  | @unfit drafts e hread h =>
    have hload : Program.ofText book = .error (.unfit e) := by simp only [Program.ofText, hread, h]
    exact iff_of_true rfl (.inl ⟨_, hload⟩)
  | @cooked drafts p ending k hread hbuilt h =>
    have hload : Program.ofText book = .ok p := by simp only [Program.ofText, hread, hbuilt]
    cases ending with
    | failed e => exact iff_of_true rfl (.inr ⟨p, e, k, hload, h⟩)
    | starved => exact absurd rfl h.fed
    | done =>
      refine iff_of_false (by simp) ?_
      rintro (⟨e, herror⟩ | ⟨p', e, k', hload', hfailed⟩)
      · rw [hload] at herror
        cases herror
      · rw [hload] at hload'
        cases hload'
        cases (h.unique hfailed).1

theorem status_le_one (h : Shows o book r seed report) : report.status ≤ 1 := by
  cases h with
  | unreadable | unfit => exact Nat.le_refl 1
  | cooked =>
    dsimp only
    split <;> decide

/-- What is refused is not cooked. -/
theorem Orders.not_refused (h : Orders args open? stdin o book r) : ¬ Refused args open? := by
  rintro (⟨e, herror⟩ | ⟨o', hparse, -, hpath⟩)
  · rw [h.parse] at herror
    cases herror
  · rw [h.parse] at hparse
    cases hparse
    rcases hpath with hrecipe | ⟨hne, hinput⟩
    · have hbook := h.book
      simp [hrecipe] at hbook
    · have hrefrigerator := h.refrigerator
      simp [hne, hinput] at hrefrigerator

/-- A command line ends with the status 2 exactly if it is refused. -/
theorem status_eq_two_iff (h : Reports args open? stdin seed report) :
    report.status = 2 ↔ Refused args open? := by
  cases h with
  | @misused e h => exact iff_of_true rfl (.inl ⟨e, h⟩)
  | @help o h hhelp =>
    refine iff_of_false (by simp) ?_
    rintro (⟨e, herror⟩ | ⟨o', hparse, hhelp', -⟩)
    · rw [h] at herror
      cases herror
    · rw [h] at hparse
      cases hparse
      rw [hhelp] at hhelp'
      cases hhelp'
  | @noRecipe o h hhelp hrecipe => exact iff_of_true rfl (.inr ⟨o, h, hhelp, .inl hrecipe⟩)
  | @noInput o source h hhelp hrecipe hpath hinput =>
    exact iff_of_true rfl (.inr ⟨o, h, hhelp, .inr ⟨hpath, hinput⟩⟩)
  | ordered horders hshows =>
    have hle := status_le_one hshows
    exact iff_of_false (by omega) horders.not_refused

/-- What is refused shows nothing but a complaint. -/
theorem out_of_status_eq_two (h : Reports args open? stdin seed report)
    (hstatus : report.status = 2) : report.out = [] := by
  cases h with
  | misused | noRecipe | noInput => rfl
  | help => cases hstatus
  | ordered horders hshows =>
    have hle := status_le_one hshows
    omega

/-! ## Seeds and numbers -/

/-- A seed that is given is the one that is used. -/
theorem run_of_seed (hparse : Options.parse args = .ok o) (hseed : o.seed.isSome) (seed' : UInt32) :
    run args open? stdin seed' fuel = run args open? stdin seed fuel := by
  obtain ⟨n, hn⟩ := Option.isSome_iff_exists.1 hseed
  have hcook (book : Text) (r : Refrigerator) :
      cook o book r seed' fuel = cook o book r seed fuel := by
    simp only [cook, hn, Option.getD_some]
  simp only [run, hparse, hcook]

/-- Numbers may be taken from a file or from the standard input. -/
theorem run_of_input {path : Text} (hparse : Options.parse args = .ok o) (hnone : o.inputPath = [])
    (hparse' : Options.parse args' = .ok { o with inputPath := path }) (hpath : path ≠ [])
    (hopen : open? path = some (.file stdin)) (stdin' : Text) :
    run args' open? stdin' seed fuel = run args open? stdin seed fuel := by
  have hcook (book : Text) (r : Refrigerator) :
      cook { o with inputPath := path } book r seed fuel = cook o book r seed fuel := rfl
  simp [run, hparse, hparse', hnone, hpath, hopen, hcook, Source.refrigerator]

end

end CommandLine

/-- The program at a command line is the library run from end to end.  It shows a
report if and only if this is what reading the arguments, opening the paths, reading
the book, making a program of it and cooking that come to; there is one such
report at most.  The status is 2 exactly if the command line is refused, and an
order ends with 1 exactly if one of the last three fails.  A seed that is given
leaves no choice, and whether numbers are taken from a file or from the standard
input makes no difference. -/
theorem run_iff_reports (args : List Text) (open? : Text → Option Source) (stdin : Text)
    (seed : UInt32) :
    (∀ report, (∃ fuel, CommandLine.run args open? stdin seed fuel = some report) ↔
      CommandLine.Reports args open? stdin seed report) ∧
    (∀ fuel fuel' report report', CommandLine.run args open? stdin seed fuel = some report →
      CommandLine.run args open? stdin seed fuel' = some report' → report' = report) ∧
    (∀ report, CommandLine.Reports args open? stdin seed report →
      (report.status = 2 ↔ CommandLine.Refused args open?) ∧
        (report.status = 2 → report.out = [])) ∧
    (∀ o book r report, CommandLine.Orders args open? stdin o book r →
      CommandLine.Reports args open? stdin seed report →
        report.status ≤ 1 ∧
        (report.status = 1 ↔ (∃ e, Program.ofText book = .error e) ∨
          ∃ p e k, Program.ofText book = .ok p ∧
            p.Ends o.maxDepth (Kitchen.prepare r (o.seed.getD seed)) (.failed e) k)) ∧
    (∀ o, Options.parse args = .ok o → o.seed.isSome → ∀ seed' fuel,
      CommandLine.run args open? stdin seed' fuel = CommandLine.run args open? stdin seed fuel) ∧
    ∀ o path, Options.parse args = .ok o → o.inputPath = [] → path ≠ [] →
      open? path = some (.file stdin) →
        Options.parse (args ++ [ofString "--input", path]) = .ok { o with inputPath := path } ∧
        ∀ args', Options.parse args' = .ok { o with inputPath := path } → ∀ stdin' fuel,
          CommandLine.run args' open? stdin' seed fuel =
            CommandLine.run args open? stdin seed fuel := by
  refine ⟨fun report => ⟨fun h => ?_, CommandLine.exists_run_of_reports⟩, ?_, ?_, ?_, ?_, ?_⟩
  · obtain ⟨fuel, hrun⟩ := h
    exact CommandLine.reports_of_run hrun
  · intro fuel fuel' report report'
    exact CommandLine.run_unique
  · intro report h
    exact ⟨CommandLine.status_eq_two_iff h, CommandLine.out_of_status_eq_two h⟩
  · intro o book r report horders h
    have hshows := CommandLine.shows_of_orders horders h
    exact ⟨CommandLine.status_le_one hshows, CommandLine.status_eq_one_iff hshows⟩
  · intro o hparse hseed seed' fuel
    exact CommandLine.run_of_seed hparse hseed seed'
  · intro o path hparse hnone hpath hopen
    refine ⟨Options.parse_append_input path hparse, fun args' hparse' stdin' fuel => ?_⟩
    exact CommandLine.run_of_input hparse hnone hparse' hpath hopen stdin'

/-- A toast that serves the milk and fails at the crumbs, wherever the number of
crumbs comes from and whatever seed there is besides the one that is given.  With
`--dump` the program is listed in front of the failure. -/
theorem run_iff_reports_toast :
    let book : Text :=
      "Toast.\n\nIngredients.\n72 ml milk\ncrumbs\n\nMethod.\n" ++
        "Take crumbs from refrigerator.\nLiquefy crumbs.\nPut crumbs into mixing bowl.\n" ++
        "Put milk into mixing bowl.\nPour contents of the mixing bowl into the baking dish." ++
        "\n\nServes 1."
    let open? (path : Text) : Option Source :=
      if path = "toast" then some (.file book)
      else if path = "numbers" then some (.file "-1") else none
    let args : List Text := ["--seed", "3", "toast"]
    let report : Report :=
      { status := 1, out := "H"
        err := "\nFailed to cook toast: in 'Toast': -1 cannot be served as a character\n" }
    let listing : Text :=
      "Toast (main):\n  - milk (liquid, 72)\n  - crumbs (either)\n" ++
        "  0: Read\x7bcrumbs\x7d  Take crumbs from the refrigerator.\n" ++
        "  1: Liquefy\x7bcrumbs\x7d  Liquefy crumbs.\n" ++
        "  2: Push\x7bcrumbs, bowl 1\x7d  Put crumbs into the mixing bowl.\n" ++
        "  3: Push\x7bmilk, bowl 1\x7d  Put milk into the mixing bowl.\n" ++
        "  4: CopyStack\x7bbowl 1, dish 1\x7d  " ++
        "Pour contents of the mixing bowl into the baking dish.\n" ++
        "  5: PrintStacks\x7b1\x7d  Serves 1.\n"
    CommandLine.Reports args open? "-1" 5 report ∧
      CommandLine.run (args ++ [ofString "--input", "numbers"]) open? [] 5 9 = some report ∧
      CommandLine.Reports (ofString "--dump" :: args) open? "-1" 5
        { report with err := listing ++ report.err } := by
  intro book open? args report listing
  obtain ⟨hreports, -, -, -, hseed, hinput⟩ := run_iff_reports args open? "-1" 5
  have hparse : Options.parse args = .ok { recipePath := "toast", seed := some 3 } := rfl
  have hrun : CommandLine.run args open? "-1" 0 9 = some report := by decide +kernel
  rw [hseed _ hparse rfl] at hrun
  obtain ⟨hparse', hsame⟩ := hinput _ "numbers" hparse rfl (by decide) (by decide +kernel)
  have hlisted : CommandLine.run (ofString "--dump" :: args) open? "-1" 5 9 =
      some { report with err := listing ++ report.err } := by decide +kernel
  exact ⟨(hreports report).1 ⟨9, hrun⟩, (hsame _ hparse' [] 9).trans hrun,
    ((run_iff_reports (ofString "--dump" :: args) open? "-1" 5).1 _).1 ⟨9, hlisted⟩⟩

end Cookbook
