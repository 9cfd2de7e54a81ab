import Cookbook.Instruction.Sentence
import Cookbook.Program

/-!
# Cookbook.Program.Listing

A program written out: its recipes in the order of their keys, each with its
ingredients and its numbered instructions, in short and as a statement.
-/

namespace Cookbook

/-- The line of an ingredient. -/
def Ingredient.listing (i : Ingredient) : Text := "  - " ++ i.text ++ "\n"

/-- The line of the instruction with the given number. -/
def Instruction.listing (i : Instruction) (n : Nat) : Text :=
  "  " ++ Decimal.ofNat n ++ ": " ++ i.summary ++ "  " ++ i.sentence ++ "\n"

/-- The lines of a recipe; the main recipe is marked. -/
def Recipe.listing (r : Recipe) (isMain : Bool) : Text :=
  let mark : Text := if isMain then " (main)" else []
  r.name ++ mark ++ ":\n" ++ r.ingredients.flatMap Ingredient.listing ++
    r.instructions.zipIdx.flatMap fun (i, n) => i.listing n

/-- The lines of all recipes. -/
def Program.listing (p : Program) : Text :=
  p.recipes.entries.flatMap fun (_, r) => r.listing (r.name = p.main)

end Cookbook
