import Cookbook.Kitchen.Stack
import Cookbook.Location

/-!
# Cookbook.RunError

What can go wrong in the kitchen.
-/

namespace Cookbook

/-- The reasons for giving up cooking. -/
inductive RunError.Cause where
  | noMainRecipe
  | noSuchRecipe (name : Text)
  | tooDeep
  /-- The statement at a place asks for what the kitchen does not have. -/
  | lacking (place : Location) (what : Shortage)
  | divisionByZero (place : Location) (ingredient : Text)
  | divisionOverflow (place : Location)
  | noCharacter (number : Int64)
  | nothingLeft
  | notANumber
deriving DecidableEq

/-- The wording of a reason. -/
def RunError.Cause.message : Cause → Text
  | noMainRecipe => "There is no main recipe to cook"
  | noSuchRecipe name => "There is no recipe called " ++ name.quoted
  | tooDeep => "Too many recipes served within each other"
  | lacking place what => place.text ++ " " ++ what.message
  | divisionByZero place ingredient =>
    place.text ++ " Cannot divide by " ++ ingredient.quoted ++ ", it is 0"
  | divisionOverflow place => place.text ++ " Division overflows"
  | noCharacter number => Decimal.ofInt64 number ++ " cannot be served as a character"
  | nothingLeft => "There is nothing left in the refrigerator"
  | notANumber => "The refrigerator holds something that is not a number"

/-- A reason for giving up, and the recipe that was being cooked. -/
structure RunError where
  recipe : Text
  cause : RunError.Cause
deriving DecidableEq

/-- The recipe, followed by the reason.  The message ends at a NUL byte of a
name, so what comes after such a name is not told. -/
def RunError.message (e : RunError) : Text :=
  Text.untilNul ("in " ++ e.recipe.quoted ++ ": " ++ e.cause.message)

end Cookbook
