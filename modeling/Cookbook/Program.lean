import Cookbook.Ingredient
import Cookbook.Instruction
import Cookbook.Shelf

/-!
# Cookbook.Program

Recipes that are ready to be cooked, found by name without regard to case.
-/

namespace Cookbook

/-- A recipe whose loops are paired. -/
structure Recipe where
  name : Text
  ingredients : List Ingredient := []
  instructions : List Instruction := []
deriving DecidableEq

/-- Recipes by the lower-case form of their name, and the name of the one that
is cooked first. -/
structure Program where
  recipes : Shelf Text Recipe := .empty
  main : Text := []
deriving DecidableEq

namespace Program

/-- The recipe with a name, whatever its case. -/
def find? (p : Program) (name : Text) : Option Recipe := p.recipes.get? name.lower

/-- The recipe that is cooked first. -/
def mainRecipe? (p : Program) : Option Recipe := p.find? p.main

/-- Recipes as they are given; of two whose names differ in case only the first
is kept. -/
def ofRecipes (main : Text) (recipes : List Recipe) : Program where
  recipes := recipes.foldl (fun shelf r => shelf.insertNew r.name.lower r) .empty
  main

end Program

end Cookbook
