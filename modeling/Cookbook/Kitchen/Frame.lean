import Cookbook.Kitchen.Stack
import Cookbook.Program

/-!
# Cookbook.Kitchen.Frame

The state of one recipe while it is cooked: its bowls, dishes and ingredients
and the statement it has come to.  A bowl or dish is there from the moment it
is first reached for; ingredients are those the recipe declares.
-/

namespace Cookbook

/-- An ingredient in use: its value now, and the kind it was declared with. -/
structure Binding where
  value : Value
  kind : Ingredient.Kind
deriving DecidableEq

/-- The state of one recipe while it is cooked. -/
structure Frame where
  recipe : Recipe
  bowls : Shelf UInt32 Stack := .empty
  dishes : Shelf UInt32 Stack := .empty
  ingredients : Shelf Text Binding := .empty
  /-- The index of the next statement.  It is counted without a bound; in a resolved
  method it is at most the length. -/
  ip : Nat := 0
deriving DecidableEq

namespace Frame

/-- The ingredients as they are declared; the last of several declarations of
a name holds. -/
def declare (ingredients : List Ingredient) : Shelf Text Binding :=
  .ofList (ingredients.map fun i => (i.name, { value := i.initial, kind := i.kind }))

/-- The state a recipe starts in. -/
def ofRecipe (recipe : Recipe) : Frame where
  recipe
  ingredients := declare recipe.ingredients

/-! ## Bowls and dishes -/

/-- The contents of a bowl; one that is not there yet is empty. -/
def bowl (f : Frame) (n : UInt32) : Stack := (f.bowls.get? n).getD .empty

/-- The contents of a dish; one that is not there yet is empty. -/
def dish (f : Frame) (n : UInt32) : Stack := (f.dishes.get? n).getD .empty

/-- Gives a bowl new contents. -/
def setBowl (f : Frame) (n : UInt32) (s : Stack) : Frame :=
  { f with bowls := f.bowls.insert n s }

/-- Gives a dish new contents. -/
def setDish (f : Frame) (n : UInt32) (s : Stack) : Frame :=
  { f with dishes := f.dishes.insert n s }

/-- Makes sure that a bowl is there. -/
def reachBowl (f : Frame) (n : UInt32) : Frame :=
  { f with bowls := f.bowls.insertNew n .empty }

/-- Makes sure that a dish is there. -/
def reachDish (f : Frame) (n : UInt32) : Frame :=
  { f with dishes := f.dishes.insertNew n .empty }

/-- Puts a copy of a bowl on top of a dish. -/
def pour (f : Frame) (bowl dish : UInt32) : Frame :=
  let f' := f.reachBowl bowl
  f'.setDish dish ((f'.bowl bowl).pour (f'.dish dish))

@[simp] theorem bowl_setBowl_self (f : Frame) (n : UInt32) (s : Stack) :
    (f.setBowl n s).bowl n = s := by
  simp [bowl, setBowl]

theorem bowl_setBowl_of_ne (f : Frame) {m n : UInt32} (s : Stack) (h : m ≠ n) :
    (f.setBowl n s).bowl m = f.bowl m := by
  simp [bowl, setBowl, Shelf.get?_insert_of_ne _ _ h]

/-- A bowl that is reached for holds what it held. -/
@[simp] theorem bowl_reachBowl (f : Frame) (m n : UInt32) : (f.reachBowl n).bowl m = f.bowl m := by
  simp only [bowl, reachBowl, Shelf.get?_insertNew]
  split
  · next h => simp [h.1, h.2]
  · rfl

/-! ## Ingredients -/

/-- The ingredient with a name. -/
def ingredient (f : Frame) (name : Text) : Except Shortage Binding :=
  match f.ingredients.get? name with
  | some b => .ok b
  | none => .error (.unknownIngredient name)

/-- Gives an ingredient a new value; a name that is not declared is ignored. -/
def setValue (f : Frame) (name : Text) (v : Value) : Frame :=
  match f.ingredients.get? name with
  | some b => { f with ingredients := f.ingredients.insert name { b with value := v } }
  | none => f

/-- The sum of the dry ingredients, wrapping around. -/
def dryTotal (f : Frame) : Int64 :=
  f.ingredients.entries.foldl
    (fun total e => if e.2.kind = .dry then total + e.2.value.number else total) 0

/-! ## Statements -/

/-- Comes to the statement with the given index. -/
def jump (f : Frame) (ip : Nat) : Frame := { f with ip }

/-- Comes to the next statement. -/
def advance (f : Frame) : Frame := { f with ip := f.ip + 1 }

end Frame

end Cookbook
