import Cookbook.Cooking
import Cookbook.Options
import Cookbook.Program.Assembly
import Cookbook.Program.Listing

/-!
# Cookbook.CommandLine

The program as it is run from a command line, as a function of its arguments,
of what the paths lead to and of its standard input.
-/

namespace Cookbook

/-- What a path leads to if it can be opened.  A directory can be opened, but
nothing can be read from it. -/
inductive Source where
  | file (contents : Text)
  | directory
deriving DecidableEq

namespace Source

/-- The recipe book that is read from a source. -/
def book : Source → Text
  | file contents => contents
  | directory => []

/-- The refrigerator that is filled from a source.  No number can be taken
from a directory, and its end is never seen. -/
def refrigerator : Source → Refrigerator
  | file contents => .stocked contents
  | directory => .spoiled

end Source

/-- What a run of the program shows: the exit status and what it wrote. -/
structure Report where
  status : Nat
  out : Text := []
  err : Text := []
deriving DecidableEq

namespace CommandLine

/-- A run that ends before anything is cooked. -/
def refusal (err : Text) : Report := { status := 2, err }

/-- Cooks the recipe of a book.  It is named by its path where it fails;
`none` says that the fuel ran out. -/
def cook (o : Options) (book : Text) (refrigerator : Refrigerator) (seed : UInt32) (fuel : Nat) :
    Option Report :=
  match Program.ofText book with
  | .error (.unreadable e) =>
    some { status := 1, err := e.message ++ "\nFailed to parse " ++ o.recipePath ++ "\n" }
  | .error (.unfit e) =>
    some { status := 1, err := "Failed to build " ++ o.recipePath ++ ": " ++ e.message ++ "\n" }
  | .ok program =>
    let listing : Text := if o.dump then program.listing else []
    match program.run o.maxDepth fuel (Kitchen.prepare refrigerator (o.seed.getD seed)) with
    | (.done, k) => some { status := 0, out := k.served.toList, err := listing }
    | (.failed e, k) =>
      let failure : Text := "\nFailed to cook " ++ o.recipePath ++ ": " ++ e.message ++ "\n"
      some { status := 1, out := k.served.toList, err := listing ++ failure }
    | (.starved, _) => none

/-- Runs the program.  The seed is used if the arguments give none. -/
def run (args : List Text) (open? : Text → Option Source) (stdin : Text) (seed : UInt32)
    (fuel : Nat) : Option Report :=
  match Options.parse args with
  | .error e => some (refusal (e.message ++ "\n" ++ Options.usage))
  | .ok o =>
    if o.help then some { status := 0, out := Options.usage }
    else
      match open? o.recipePath with
      | none => some (refusal ("Could not open recipe " ++ o.recipePath ++ "\n"))
      | some recipe =>
        if o.inputPath.isEmpty then cook o recipe.book (.stocked stdin) seed fuel
        else
          match open? o.inputPath with
          | none => some (refusal ("Could not open input " ++ o.inputPath ++ "\n"))
          | some input => cook o recipe.book input.refrigerator seed fuel

end CommandLine

end Cookbook
