import Cookbook.Decimal

/-!
# Cookbook.Ingredient

Ingredients as a recipe declares them, and the values they hold.  A liquid
value is served as a character, any other as a number.
-/

namespace Cookbook

/-- What a place in a bowl holds. -/
structure Value where
  number : Int64 := 0
  liquid : Bool := false
deriving DecidableEq

/-- The number, followed by `~` if the value is liquid. -/
def Value.text (v : Value) : Text :=
  let mark : Text := if v.liquid then "~" else []
  Decimal.ofInt64 v.number ++ mark

/-- The state an ingredient is declared in.  Without a measure that tells, it
is either. -/
inductive Ingredient.Kind where
  | dry
  | liquid
  | either
deriving DecidableEq

namespace Ingredient.Kind

/-- The name of a kind. -/
def name : Kind → Text
  | dry => "dry"
  | liquid => "liquid"
  | either => "either"

/-- The measures a quantity may be given in. -/
def measures : List (Text × Kind) :=
  [("g", dry), ("kg", dry), ("pinch", dry), ("pinches", dry),
    ("ml", liquid), ("l", liquid), ("dash", liquid), ("dashes", liquid),
    ("cup", either), ("cups", either), ("teaspoon", either), ("teaspoons", either),
    ("tablespoon", either), ("tablespoons", either)]

/-- The kind that a measure tells, if the word is a measure. -/
def ofMeasure? (word : Text) : Option Kind := measures.lookup word

end Ingredient.Kind

/-- An ingredient of a recipe. -/
structure Ingredient where
  name : Text
  value : Option Int64 := none
  kind : Ingredient.Kind := .either
deriving DecidableEq

namespace Ingredient

/-- What the ingredient holds when its recipe starts. -/
def initial (i : Ingredient) : Value :=
  { number := i.value.getD 0, liquid := i.kind = .liquid }

/-- The form `flour (dry, 5)`, without the number if there is none. -/
def text (i : Ingredient) : Text :=
  let quantity : Text := match i.value with
    | some n => ", " ++ Decimal.ofInt64 n
    | none => []
  i.name ++ " (" ++ i.kind.name ++ quantity ++ ")"

end Ingredient

end Cookbook
