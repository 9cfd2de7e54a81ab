import Cookbook.Ingredient
import Cookbook.Instruction

/-!
# Cookbook.Draft

A recipe as it is written, before its loops are paired and before the recipes
it serves with are looked up.
-/

namespace Cookbook

/-- The parts of a written recipe.  The comment, the cooking time and the oven
are kept but change nothing. -/
structure Draft where
  title : Text
  location : Location := {}
  comment : Text := []
  ingredients : List Ingredient := []
  cookingTime : Option Int64 := none
  oven : Option Int64 := none
  gasMark : Option Int64 := none
  method : List Instruction := []
  serves : Option Int64 := none
deriving DecidableEq

end Cookbook
