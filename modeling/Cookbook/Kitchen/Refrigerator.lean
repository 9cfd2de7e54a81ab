import Cookbook.Decimal

/-!
# Cookbook.Kitchen.Refrigerator

The numbers that can be taken while cooking.  They are read off a text one by
one: white space, a sign and digits; whatever follows the digits is left.

A refrigerator that failed once fails forever.  It counts as empty if it was
looked at to its very end, and as spoiled otherwise.
-/

namespace Cookbook

/-- What is left to take. -/
inductive Refrigerator where
  | stocked (rest : Text)
  | empty
  | spoiled
deriving DecidableEq

namespace Refrigerator

/-- The refrigerator after everything up to `rest` was looked at. -/
def after (rest : Text) : Refrigerator := if rest.isEmpty then empty else stocked rest

/-- The refrigerator after a failure in front of `rest`. -/
def failing (rest : Text) : Refrigerator := if rest.isEmpty then empty else spoiled

/-- Takes the next number, if there is one. -/
def take (r : Refrigerator) : Option Int64 × Refrigerator :=
  match r with
  | empty => (none, empty)
  | spoiled => (none, spoiled)
  | stocked text =>
    let (negative, body) := Decimal.splitSign (text.dropWhile Decimal.isSpace)
    let digits := body.takeWhile Text.isDigit
    let rest := body.dropWhile Text.isDigit
    let magnitude : Int := Decimal.value digits
    if digits.isEmpty then (none, failing rest)
    else
      match Decimal.int64? (if negative then -magnitude else magnitude) with
      | some n => (some n, after rest)
      | none => (none, failing rest)

end Refrigerator

end Cookbook
