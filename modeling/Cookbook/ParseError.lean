import Cookbook.Token

/-!
# Cookbook.ParseError

What can be wrong with the text of a recipe book, and the words that say so.
-/

namespace Cookbook

namespace ParseError

/-- The parts of a recipe that a break has to follow. -/
inductive Part where
  | title
  | comments
  | ingredientList
  | cookingTime
  | oven
  | ingredientsHeading
  | methodHeading
deriving DecidableEq

/-- How messages name a part. -/
def Part.name : Part → Text
  | title => "the recipe title"
  | comments => "the comments"
  | ingredientList => "the ingredient list"
  | cookingTime => "the cooking time"
  | oven => "the oven temperature"
  | ingredientsHeading => "'Ingredients.'"
  | methodHeading => "'Method.'"

/-- The reasons for refusing a text. -/
inductive Cause where
  | noRecipe
  | noBlankLineBeforeRecipe (saw : Token.Kind)
  | noBlankLineAfter (part : Part) (saw : Token.Kind)
  | noNewLineAfter (part : Part) (saw : Token.Kind)
  | noTitle
  | unfinishedTitle
  | strayInTitle (saw : Token.Kind)
  | noIngredient
  | strayInIngredient (saw : Token.Kind)
  | unknownMeasure (word : Text)
  | noIngredientName
  | badCookingTime
  | badOven
  | badGasMark
  | noMethod (saw : Token.Kind)
  | strayInMethod (lexeme : Text)
  | unfinishedStatement
  | emptyStatement
  | unknownStatement (words : Text)
  | noStatement
  | numberWithSingular (n : Int64)
  | oneWithPlural
  | shortRefrigeration
  | negativeStirring
  | noDiners
  | noPeriodAfterDiners
  | noNewLineAfterServes
deriving DecidableEq

/-- The wording of a reason. -/
def Cause.message : Cause → Text
  | noRecipe => "Expected a recipe"
  | noBlankLineBeforeRecipe saw =>
    "Expected a blank line before the next recipe, instead saw " ++ saw.name
  | noBlankLineAfter part saw =>
    "Expected a blank line after " ++ part.name ++ ", instead saw " ++ saw.name
  | noNewLineAfter part saw =>
    "Expected a new line after " ++ part.name ++ ", instead saw " ++ saw.name
  | noTitle => "Expected a recipe title"
  | unfinishedTitle => "Expected '.' at the end of the recipe title"
  | strayInTitle saw => "Unexpected " ++ saw.name ++ " in the recipe title"
  | noIngredient => "Expected an ingredient"
  | strayInIngredient saw => "Unexpected " ++ saw.name ++ " in ingredient"
  | unknownMeasure word => "Unrecognised measure " ++ word.quoted
  | noIngredientName => "Expected an ingredient name"
  | badCookingTime => "Expected 'Cooking time: <number> minutes.'"
  | badOven => "Expected 'Pre-heat oven to <number> degrees Celsius.'"
  | badGasMark => "Expected '(gas mark <number>)'"
  | noMethod saw => "Expected 'Method.', instead saw " ++ saw.name
  | strayInMethod lexeme => "Unexpected " ++ lexeme.quoted
  | unfinishedStatement => "Expected '.' at the end of the statement"
  | emptyStatement => "Expected a statement before '.'"
  | unknownStatement words => "Unrecognised statement " ++ words.quoted
  | noStatement => "Expected at least one statement after 'Method.'"
  | numberWithSingular n => Decimal.ofInt64 n ++ " does not agree with a singular unit"
  | oneWithPlural => "1 does not agree with a plural unit"
  | shortRefrigeration => "Cannot refrigerate for less than an hour"
  | negativeStirring => "Cannot stir for negative minutes"
  | noDiners => "Expected the number of diners after 'Serves'"
  | noPeriodAfterDiners => "Expected '.' after the number of diners"
  | noNewLineAfterServes => "Expected a new line after 'Serves'"

end ParseError

/-- A reason for refusing a text and the place it is found at. -/
structure ParseError where
  location : Location
  cause : ParseError.Cause
deriving DecidableEq

namespace ParseError

/-- The place, followed by the reason. -/
def message (e : ParseError) : Text := e.location.text ++ " " ++ e.cause.message

end ParseError

/-- The error with the given reason at a token. -/
def Token.error (t : Token) (cause : ParseError.Cause) : ParseError :=
  { location := t.location, cause }

/-! ## Ways to refuse -/

/-- Steps that can refuse a text. -/
class Refusing (m : Type → Type) extends Monad m where
  /-- Refuses the text at a token. -/
  refuse {α : Type} (t : Token) (cause : ParseError.Cause) : m α
  /-- Goes on with a result, or passes an objection on. -/
  pass {α : Type} (r : Except ParseError α) : m α

/-- Refusing without a word. -/
@[default_instance]
instance : Refusing (Except ParseError) where
  refuse t cause := .error (t.error cause)
  pass r := r

namespace Refusing

variable {α β : Type} {x : Except ParseError α} {f : α → Except ParseError β}

@[simp] theorem refuse_def (t : Token) (cause : ParseError.Cause) :
    (refuse t cause : Except ParseError α) = .error (t.error cause) := rfl

@[simp] theorem pass_def (r : Except ParseError α) : (pass r : Except ParseError α) = r := rfl

@[simp] theorem pure_def (a : α) : (pure a : Except ParseError α) = .ok a := rfl

@[simp] theorem bind_ok (a : α) : (Except.ok a >>= f) = f a := rfl

@[simp] theorem bind_error (e : ParseError) : (Except.error e >>= f) = .error e := rfl

/-- Two steps succeed when the first does and the second succeeds with its result. -/
theorem bind_eq_ok_iff {b : β} : x >>= f = .ok b ↔ ∃ a, x = .ok a ∧ f a = .ok b := by
  cases x <;> simp

/-- Two steps fail when the first does or the second fails with its result. -/
theorem bind_eq_error_iff {e : ParseError} :
    x >>= f = .error e ↔ x = .error e ∨ ∃ a, x = .ok a ∧ f a = .error e := by
  cases x <;> simp

end Refusing

end Cookbook
