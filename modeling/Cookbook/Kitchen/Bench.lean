import Cookbook.Kitchen.Frame
import Cookbook.RunError

/-!
# Cookbook.Kitchen.Bench

The statements that only need the recipe's own bowls, dishes and ingredients.

A bowl is looked up before an ingredient where something is put into it, and
after it everywhere else.  So a statement that fails can leave at most one
thing behind: an empty bowl that was not there before.
-/

namespace Cookbook

/-- Why a statement cannot be carried out. -/
inductive Fault where
  /-- It asks for what is not there.  Where it stands is not known here. -/
  | lacks (what : Shortage)
  /-- It gives the recipe up for a reason of its own. -/
  | tells (cause : RunError.Cause)
deriving DecidableEq

/-- The reason that a statement at a place is given up for. -/
def Fault.cause (place : Location) : Fault → RunError.Cause
  | lacks what => .lacking place what
  | tells cause => cause

/-- What trying a statement leaves, and why it failed if it did. -/
structure Attempt where
  frame : Frame
  fault : Option Fault := none
deriving DecidableEq

namespace Frame

/-- A statement that asks for what is not there. -/
def lacking (f : Frame) (what : Shortage) : Attempt := { frame := f, fault := some (.lacks what) }

/-- Puts an ingredient on top of a bowl. -/
def put (f : Frame) (i : Instruction) : Attempt :=
  let f' := f.reachBowl i.bowl
  match f'.ingredient i.ingredient with
  | .error what => f'.lacking what
  | .ok b => { frame := f'.setBowl i.bowl ((f'.bowl i.bowl).push b.value) }

/-- Takes the top of a bowl into an ingredient. -/
def fold (f : Frame) (i : Instruction) : Attempt :=
  match f.ingredient i.ingredient with
  | .error what => f.lacking what
  | .ok _ =>
    match (f.bowl i.bowl).pop with
    | .error what => (f.reachBowl i.bowl).lacking what
    | .ok (v, rest) => { frame := (f.setBowl i.bowl rest).setValue i.ingredient v }

/-- Reckons with the top of a bowl and an ingredient.  The result is liquid if
the ingredient is. -/
def reckon (f : Frame) (i : Instruction) (op : Int64 → Int64 → Except RunError.Cause Int64) :
    Attempt :=
  match f.ingredient i.ingredient with
  | .error what => f.lacking what
  | .ok b =>
    match (f.bowl i.bowl).pop with
    | .error _ => (f.reachBowl i.bowl).lacking .nothingOnTop
    | .ok (top, rest) =>
      match op top.number b.value.number with
      | .error cause => { frame := f, fault := some (.tells cause) }
      | .ok n =>
        { frame := f.setBowl i.bowl (rest.push { number := n, liquid := b.value.liquid }) }

/-- The quotient rounded towards zero, where there is one. -/
def quotient (i : Instruction) (a b : Int64) : Except RunError.Cause Int64 :=
  if b = 0 then .error (.divisionByZero i.location i.ingredient)
  else if a = Int64.minValue ∧ b = -1 then .error (.divisionOverflow i.location)
  else .ok (a / b)

/-- Puts the total of the dry ingredients on top of a bowl. -/
def addDry (f : Frame) (i : Instruction) : Attempt :=
  { frame := f.setBowl i.bowl ((f.bowl i.bowl).push { number := f.dryTotal }) }

/-- Makes an ingredient liquid. -/
def liquefy (f : Frame) (i : Instruction) : Attempt :=
  match f.ingredient i.ingredient with
  | .error what => f.lacking what
  | .ok b => { frame := f.setValue i.ingredient { b.value with liquid := true } }

/-- Makes everything in a bowl liquid. -/
def liquefyContents (f : Frame) (i : Instruction) : Attempt :=
  { frame := f.setBowl i.bowl (f.bowl i.bowl).liquefy }

/-- Sinks the top of a bowl by a number of places. -/
def stirBy (f : Frame) (i : Instruction) (depth : Nat) : Attempt :=
  match (f.bowl i.bowl).stir depth with
  | .error what => (f.reachBowl i.bowl).lacking what
  | .ok s => { frame := f.setBowl i.bowl s }

/-- Sinks the top of a bowl by the minutes of the statement, read as an
unsigned number. -/
def stir (f : Frame) (i : Instruction) : Attempt :=
  f.stirBy i (i.count.getD 0).toUInt64.toNat

/-- Sinks the top of a bowl by the number of an ingredient, by nothing if it is
negative. -/
def stirIngredient (f : Frame) (i : Instruction) : Attempt :=
  match f.ingredient i.ingredient with
  | .error what => f.lacking what
  | .ok b => f.stirBy i b.value.number.toInt.toNat

/-- Empties a bowl. -/
def clean (f : Frame) (i : Instruction) : Attempt := { frame := f.setBowl i.bowl .empty }

end Frame

end Cookbook
