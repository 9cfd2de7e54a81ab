import Cookbook.Instruction

/-!
# Cookbook.BuildError

What can be wrong with recipes that read well but do not fit together.
-/

namespace Cookbook

/-- The reasons for refusing recipes. -/
inductive BuildError.Cause where
  | noRecipes
  | titleTaken
  /-- A statement ends a loop that is not open. -/
  | closesNothing (statement : Instruction)
  /-- There is no loop to leave. -/
  | outsideLoop (statement : Instruction)
  /-- A loop is never ended. -/
  | neverClosed (start : Instruction)
  | noSuchRecipe (name : Text)
deriving DecidableEq

/-- The wording of a reason. -/
def BuildError.Cause.message : Cause → Text
  | noRecipes => "A program needs at least one recipe"
  | titleTaken => "A recipe with this title already exists"
  | closesNothing i =>
    Text.quoted (i.name ++ " until " ++ i.keyword) ++ " at " ++ i.location.text ++
      " does not close any loop"
  | outsideLoop i => "'Set aside' at " ++ i.location.text ++ " is not inside a loop"
  | neverClosed i =>
    Text.quoted (i.name ++ " the " ++ i.ingredient) ++ " at " ++ i.location.text ++
      " is never closed with " ++ i.keyword.quoted
  | noSuchRecipe name => Text.quoted ("Serve with " ++ name) ++ ": there is no such recipe"

/-- A reason for refusing recipes, and the recipe it is found in. -/
structure BuildError where
  recipe : Text
  cause : BuildError.Cause
deriving DecidableEq

/-- The recipe, followed by the reason.  The message ends at a NUL byte of a
name, so what comes after such a name is not told. -/
def BuildError.message (e : BuildError) : Text :=
  Text.untilNul ("in " ++ e.recipe.quoted ++ ": " ++ e.cause.message)

end Cookbook
