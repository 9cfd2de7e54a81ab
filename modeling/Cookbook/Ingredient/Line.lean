import Cookbook.Ingredient
import Cookbook.ParseError

/-!
# Cookbook.Ingredient.Line

A line of an ingredient list: a quantity, a measure and a name, the first two
of which may be missing.  A measure counts as one only if a name follows it.
-/

namespace Cookbook

namespace Ingredient

variable {m : Type → Type} [Refusing m]

/-- Takes the quantity off a line. -/
def splitQuantity : List Token → Option Int64 × List Token
  | [] => (none, [])
  | t :: rest =>
    match t.kind with
    | .number n => (some n, rest)
    | _ => (none, t :: rest)

/-- Takes the measure off what is left of a line.  `heaped` and `level` make
the ingredient dry, and they need a measure and a name. -/
def splitMeasure (t : Token) (rest : List Token) : m (Kind × List Token) :=
  if t.lexeme = "heaped" ∨ t.lexeme = "level" then
    match rest with
    | [] => Refusing.refuse t (.unknownMeasure t.lexeme)
    | [u] => Refusing.refuse u (.unknownMeasure u.lexeme)
    | u :: name =>
      if (Kind.ofMeasure? u.lexeme).isSome then pure (.dry, name)
      else Refusing.refuse u (.unknownMeasure u.lexeme)
  else
    match Kind.ofMeasure? t.lexeme, rest with
    | some kind, _ :: _ => pure (kind, rest)
    | _, _ => pure (.either, t :: rest)

/-- The ingredient that a line with at least one token declares. -/
def ofLine (first : Token) (others : List Token) : m Ingredient :=
  match (first :: others).find? Token.isStray with
  | some t => Refusing.refuse t (.strayInIngredient t.kind)
  | none =>
    match splitQuantity (first :: others) with
    | (_, []) => Refusing.refuse first .noIngredientName
    | (value, t :: rest) => do
      let (kind, name) ← splitMeasure t rest
      return { name := Token.join name, value, kind }

end Ingredient

end Cookbook
