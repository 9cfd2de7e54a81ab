import Cookbook.Draft.Book
import Cookbook.Loops
import Cookbook.Program

/-!
# Cookbook.Program.Assembly

Making a program of written recipes: loops are paired, titles have to differ in
more than case, and every recipe that is served with has to be there.  The
first recipe is the main one.
-/

namespace Cookbook

/-- The statement that a number of diners adds to a method. -/
def Draft.serving (d : Draft) : List Instruction :=
  match d.serves with
  | some n => [{ action := .serve, count := some n }]
  | none => []

/-- The recipe of a draft. -/
def Recipe.ofDraft (d : Draft) : Except BuildError Recipe :=
  match Loops.resolve d.method with
  | .error cause => .error { recipe := d.title, cause }
  | .ok method =>
    .ok { name := d.title, ingredients := d.ingredients, instructions := method ++ d.serving }

namespace Program

/-- Puts the recipes of drafts onto a shelf. -/
def shelve (shelf : Shelf Text Recipe) : List Draft → Except BuildError (Shelf Text Recipe)
  | [] => .ok shelf
  | d :: rest =>
    match Recipe.ofDraft d with
    | .error e => .error e
    | .ok r =>
      if shelf.contains r.name.lower then .error { recipe := r.name, cause := .titleTaken }
      else shelve (shelf.insert r.name.lower r) rest

/-- The first statement, recipe by recipe, that serves with a recipe that is
not there. -/
def missingCall? (p : Program) : Option BuildError :=
  p.recipes.entries.findSome? fun (_, r) =>
    (r.instructions.find? fun i => i.action = .serveWith && (p.find? i.name).isNone).map fun i =>
      { recipe := r.name, cause := .noSuchRecipe i.name }

/-- The program of some drafts. -/
def ofDrafts (drafts : List Draft) : Except BuildError Program :=
  match drafts with
  | [] => .error { recipe := [], cause := .noRecipes }
  | first :: _ =>
    match shelve .empty drafts with
    | .error e => .error e
    | .ok recipes =>
      let program : Program := { recipes, main := first.title }
      match program.missingCall? with
      | some e => .error e
      | none => .ok program

end Program

/-- Why a text gives no program. -/
inductive LoadError where
  | unreadable (e : ParseError)
  | unfit (e : BuildError)
deriving DecidableEq

/-- The program of a text. -/
def Program.ofText (text : Text) : Except LoadError Program :=
  match Draft.parse text with
  | .error e => .error (.unreadable e)
  | .ok drafts =>
    match Program.ofDrafts drafts with
    | .error e => .error (.unfit e)
    | .ok program => .ok program

end Cookbook
