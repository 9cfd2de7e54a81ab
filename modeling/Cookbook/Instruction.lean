import Cookbook.Location

/-!
# Cookbook.Instruction

What one statement of a method asks for: an action and its operands.
`Instruction.summary` is the short form that a listing shows.
-/

namespace Cookbook

/-- The things a statement can ask for. -/
inductive Action where
  /-- Take a number from the refrigerator. -/
  | take
  /-- Put an ingredient on top of a bowl. -/
  | put
  /-- Take the top of a bowl into an ingredient. -/
  | fold
  /-- Add an ingredient to the top of a bowl. -/
  | add
  /-- Subtract an ingredient from the top of a bowl. -/
  | remove
  /-- Multiply the top of a bowl by an ingredient. -/
  | combine
  /-- Divide the top of a bowl by an ingredient. -/
  | divide
  /-- Put the total of the dry ingredients on top of a bowl. -/
  | addDry
  /-- Make an ingredient liquid. -/
  | liquefy
  /-- Make everything in a bowl liquid. -/
  | liquefyContents
  /-- Sink the top of a bowl by a number of places. -/
  | stir
  /-- Sink the top of a bowl by as many places as an ingredient says. -/
  | stirIngredient
  /-- Shuffle a bowl. -/
  | mix
  /-- Empty a bowl. -/
  | clean
  /-- Put a copy of a bowl on top of a dish. -/
  | pour
  /-- Begin a loop that runs until an ingredient is 0. -/
  | loopStart
  /-- End a loop, counting an ingredient down if one is named. -/
  | loopEnd
  /-- Leave the innermost loop. -/
  | setAside
  /-- Cook another recipe with copies of the bowls. -/
  | serveWith
  /-- Stop, serving some dishes first if a number is given. -/
  | refrigerate
  /-- Serve the dishes. -/
  | serve
deriving DecidableEq

/-- The name of an action in a listing. -/
def Action.name : Action → Text
  | take => "Read"
  | put => "Push"
  | fold => "Pop"
  | add => "Add"
  | remove => "Subtract"
  | combine => "Multiply"
  | divide => "Divide"
  | addDry => "AddDry"
  | liquefy => "Liquefy"
  | liquefyContents => "LiquefyContents"
  | stir => "Stir"
  | stirIngredient => "StirIngredient"
  | mix => "Mix"
  | clean => "ClearStack"
  | pour => "CopyStack"
  | loopStart => "LoopStart"
  | loopEnd => "LoopEnd"
  | setAside => "Break"
  | serveWith => "Call"
  | refrigerate => "Return"
  | serve => "PrintStacks"

/-- An action with its operands.  An operand that the action has no use for
keeps its default. -/
structure Instruction where
  action : Action
  /-- The ingredient worked with. -/
  ingredient : Text := []
  /-- The verb of a loop statement, or the recipe to serve with. -/
  name : Text := []
  /-- The word that closes a loop. -/
  keyword : Text := []
  bowl : UInt32 := 1
  dish : UInt32 := 1
  /-- Minutes, hours or dishes. -/
  count : Option Int64 := none
  /-- The other end of a loop, or the end of the loop that is left.  Positions are
  counted without a bound; those of a resolved method are below its length. -/
  target : Nat := 0
  location : Location := {}
deriving DecidableEq

namespace Instruction

/-- The same instruction, wherever it was written. -/
def unplaced (i : Instruction) : Instruction := { i with location := {} }

/-- Two instructions ask for the same if they differ at most in their place. -/
def Agrees (i j : Instruction) : Prop := i.unplaced = j.unplaced

instance (i j : Instruction) : Decidable (i.Agrees j) :=
  inferInstanceAs (Decidable (i.unplaced = j.unplaced))

/-! ## Summaries -/

/-- The form `bowl n`. -/
def bowlSummary (i : Instruction) : Text := "bowl " ++ Decimal.ofNat i.bowl.toNat

/-- The operands that a summary shows. -/
def operands (i : Instruction) : Text :=
  match i.action with
  | .take | .liquefy => i.ingredient
  | .put | .fold | .add | .remove | .combine | .divide | .stirIngredient =>
    i.ingredient ++ ", " ++ i.bowlSummary
  | .addDry | .liquefyContents | .mix | .clean => i.bowlSummary
  | .stir => i.bowlSummary ++ ", " ++ Decimal.ofInt64 (i.count.getD 0)
  | .pour => i.bowlSummary ++ ", dish " ++ Decimal.ofNat i.dish.toNat
  | .loopStart | .loopEnd =>
    let ingredient : Text := if i.ingredient.isEmpty then [] else ", " ++ i.ingredient
    i.keyword ++ ingredient ++ ", @" ++ Decimal.ofNat i.target
  | .setAside => "@" ++ Decimal.ofNat i.target
  | .serveWith => i.name
  | .refrigerate | .serve =>
    match i.count with
    | some n => Decimal.ofInt64 n
    | none => []

/-- The name of the action with its operands between braces. -/
def summary (i : Instruction) : Text := i.action.name ++ "\x7b" ++ i.operands ++ "\x7d"

end Instruction

end Cookbook
