import Cookbook.Instruction

/-!
# Cookbook.Instruction.Sentence

The statement that asks for an instruction, in its plainest wording: bowls and
dishes are written with `the` and with a number unless it is 1, and units
agree with their number.
-/

namespace Cookbook

namespace Instruction

/-- A bowl or dish by its number; the first one goes without. -/
def vessel (noun : Text) (n : UInt32) : Text :=
  let number : Text := if n = 1 then [] else " " ++ Decimal.ofNat n.toNat
  "the " ++ noun ++ number

/-- A number of units, in the singular for 1. -/
def quantity (n : Int64) (unit : Text) : Text :=
  let ending : Text := if n = 1 then [] else "s"
  Decimal.ofInt64 n ++ " " ++ unit ++ ending

/-- The bowl an instruction works on. -/
def bowlPhrase (i : Instruction) : Text := vessel "mixing bowl" i.bowl

/-- The dish an instruction works on. -/
def dishPhrase (i : Instruction) : Text := vessel "baking dish" i.dish

/-- The words of the statement, without the period. -/
def wording (i : Instruction) : Text :=
  match i.action with
  | .take => "Take " ++ i.ingredient ++ " from the refrigerator"
  | .put => "Put " ++ i.ingredient ++ " into " ++ i.bowlPhrase
  | .fold => "Fold " ++ i.ingredient ++ " into " ++ i.bowlPhrase
  | .add => "Add " ++ i.ingredient ++ " to " ++ i.bowlPhrase
  | .remove => "Remove " ++ i.ingredient ++ " from " ++ i.bowlPhrase
  | .combine => "Combine " ++ i.ingredient ++ " into " ++ i.bowlPhrase
  | .divide => "Divide " ++ i.ingredient ++ " into " ++ i.bowlPhrase
  | .addDry => "Add dry ingredients to " ++ i.bowlPhrase
  | .liquefy => "Liquefy " ++ i.ingredient
  | .liquefyContents => "Liquefy contents of " ++ i.bowlPhrase
  | .stir => "Stir " ++ i.bowlPhrase ++ " for " ++ quantity (i.count.getD 0) "minute"
  | .stirIngredient => "Stir " ++ i.ingredient ++ " into " ++ i.bowlPhrase
  | .mix => "Mix " ++ i.bowlPhrase ++ " well"
  | .clean => "Clean " ++ i.bowlPhrase
  | .pour => "Pour contents of " ++ i.bowlPhrase ++ " into " ++ i.dishPhrase
  | .loopStart => i.name ++ " the " ++ i.ingredient
  | .loopEnd =>
    let ingredient : Text := if i.ingredient.isEmpty then [] else " the " ++ i.ingredient
    i.name ++ ingredient ++ " until " ++ i.keyword
  | .setAside => "Set aside"
  | .serveWith => "Serve with " ++ i.name
  | .refrigerate =>
    match i.count with
    | some n => "Refrigerate for " ++ quantity n "hour"
    | none => "Refrigerate"
  | .serve => "Serves " ++ Decimal.ofInt64 (i.count.getD 0)

/-- The statement with its period. -/
def sentence (i : Instruction) : Text := i.wording ++ "."

end Instruction

end Cookbook
