import Cookbook.Decimal

/-!
# Cookbook.Location

Places in a recipe book.  Lines count from 1 and columns, in bytes, from 0.  They are
counted without a bound; in a book below `2 ^ 31 - 1` bytes no count leaves the range
of signed 32-bit numbers.
-/

namespace Cookbook

/-- A place in a text; a statement that was never written is at `0:0`. -/
structure Location where
  line : Int := 0
  col : Int := 0
deriving DecidableEq

namespace Location

/-- Where a text begins. -/
def start : Location := { line := 1, col := 0 }

/-- The place after one more byte. -/
def step (l : Location) (b : UInt8) : Location :=
  if b == Text.lineFeed then { line := l.line + 1, col := 0 } else { l with col := l.col + 1 }

/-- The place after a piece of text. -/
def past (l : Location) (t : Text) : Location := t.foldl step l

/-- The form `line:col`. -/
def text (l : Location) : Text := Decimal.ofInt l.line ++ ":" ++ Decimal.ofInt l.col

@[simp] theorem past_nil (l : Location) : l.past [] = l := rfl

theorem past_append (l : Location) (s t : Text) : l.past (s ++ t) = (l.past s).past t := by
  simp [past]

end Location

end Cookbook
