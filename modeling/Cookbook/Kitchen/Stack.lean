import Cookbook.Ingredient
import Cookbook.Random.Shuffle

/-!
# Cookbook.Kitchen.Stack

The contents of a mixing bowl or a baking dish.  Only the top can be reached.
-/

namespace Cookbook

/-- What is asked of a kitchen that does not have it. -/
inductive Shortage where
  /-- Nothing can be taken out. -/
  | nothingToTake
  /-- Nothing is on top. -/
  | nothingOnTop
  | unknownIngredient (name : Text)
deriving DecidableEq

/-- The wording of a shortage, which ends at a NUL byte of a name. -/
def Shortage.message : Shortage → Text
  | nothingToTake => "Cannot take anything out of an empty bowl"
  | nothingOnTop => "There is nothing on top of an empty bowl"
  | unknownIngredient name => Text.untilNul (name.quoted ++ " is not one of the ingredients")

/-- A stack of values, the top in front. -/
structure Stack where
  items : List Value := []
deriving DecidableEq

namespace Stack

/-- The stack with nothing in it. -/
def empty : Stack := {}

/-- The values from the bottom up. -/
def contents (s : Stack) : List Value := s.items.reverse

/-- The stack with the given values from the bottom up. -/
def ofContents (values : List Value) : Stack := { items := values.reverse }

/-- How many values there are. -/
def size (s : Stack) : Nat := s.items.length

/-- Whether there are no values. -/
def isEmpty (s : Stack) : Bool := s.items.isEmpty

/-- Puts a value on top. -/
def push (s : Stack) (v : Value) : Stack := { items := v :: s.items }

/-- Takes the top off. -/
def pop (s : Stack) : Except Shortage (Value × Stack) :=
  match s.items with
  | [] => .error .nothingToTake
  | v :: rest => .ok (v, { items := rest })

/-- Looks at the top. -/
def top (s : Stack) : Except Shortage Value :=
  match s.items with
  | [] => .error .nothingOnTop
  | v :: _ => .ok v

/-- Puts another value in place of the top. -/
def setTop (s : Stack) (v : Value) : Except Shortage Stack :=
  match s.items with
  | [] => .error .nothingOnTop
  | _ :: rest => .ok { items := v :: rest }

/-- Sinks the top by `depth` places, or to the bottom if there are fewer. -/
def stir (s : Stack) (depth : Nat) : Except Shortage Stack :=
  match s.items with
  | [] => .error .nothingToTake
  | v :: rest => .ok { items := rest.take depth ++ v :: rest.drop depth }

/-- Makes every value liquid. -/
def liquefy (s : Stack) : Stack := { items := s.items.map fun v => { v with liquid := true } }

/-- A dish with a copy of the bowl put on top, in the same order. -/
def pour (bowl dish : Stack) : Stack := { items := bowl.items ++ dish.items }

/-- The stack in random order; places are counted from the bottom. -/
def shuffle (fuel : Nat) (s : Stack) (g : Twister) : Option (Stack × Twister) :=
  (g.shuffle fuel s.contents.toArray).map fun (items, g') => (ofContents items.toList, g')

/-! ## The values from the bottom up -/

@[simp] theorem contents_empty : empty.contents = [] := rfl

@[simp] theorem contents_ofContents (values : List Value) :
    (ofContents values).contents = values := by
  simp [ofContents, contents]

@[simp] theorem ofContents_contents (s : Stack) : ofContents s.contents = s := by
  simp [ofContents, contents]

@[simp] theorem contents_push (s : Stack) (v : Value) :
    (s.push v).contents = s.contents ++ [v] := by
  simp [push, contents]

@[simp] theorem contents_pour (bowl dish : Stack) :
    (bowl.pour dish).contents = dish.contents ++ bowl.contents := by
  simp [pour, contents]

theorem pop_push (s : Stack) (v : Value) : (s.push v).pop = .ok (v, s) := rfl

end Stack

end Cookbook
