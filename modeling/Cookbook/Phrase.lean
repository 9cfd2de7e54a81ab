import Cookbook.Instruction
import Cookbook.ParseError
import Cookbook.Phrase.Pattern

/-!
# Cookbook.Phrase

The wordings a method may use.  A sentence is read by the first phrase of
`Phrase.all` that it fits; a phrase can still refuse the number it picked out.
-/

namespace Cookbook

/-- The number that the unit of a phrase stands in. -/
inductive Agreement where
  | free
  | singular
  | plural
deriving DecidableEq

/-- A wording and the action it asks for. -/
structure Phrase where
  pattern : Pattern
  action : Action
  agreement : Agreement := .free
deriving DecidableEq

namespace Phrase

/-- The placeholder of a bowl. -/
def bowl : Element := .vessel .bowl

/-- The placeholder of a dish. -/
def dish : Element := .vessel .dish

/-! ## The table -/

def take : Phrase :=
  { pattern := ["Take", .ingredient, "from", .optional "the", "refrigerator"], action := .take }
def put : Phrase := { pattern := ["Put", .ingredient, "into", bowl], action := .put }
def fold : Phrase := { pattern := ["Fold", .ingredient, "into", bowl], action := .fold }
def addDryTo : Phrase := { pattern := ["Add", "dry", "ingredients", "to", bowl], action := .addDry }
def addDry : Phrase := { pattern := ["Add", "dry", "ingredients"], action := .addDry }
def addTo : Phrase := { pattern := ["Add", .ingredient, "to", bowl], action := .add }
def removeFrom : Phrase := { pattern := ["Remove", .ingredient, "from", bowl], action := .remove }
def combineInto : Phrase :=
  { pattern := ["Combine", .ingredient, "into", bowl], action := .combine }
def divideInto : Phrase := { pattern := ["Divide", .ingredient, "into", bowl], action := .divide }
def add : Phrase := { pattern := ["Add", .ingredient], action := .add }
def remove : Phrase := { pattern := ["Remove", .ingredient], action := .remove }
def combine : Phrase := { pattern := ["Combine", .ingredient], action := .combine }
def divide : Phrase := { pattern := ["Divide", .ingredient], action := .divide }
def liquefyContents : Phrase :=
  { pattern := ["Liquefy", "contents", "of", bowl], action := .liquefyContents }
def liquifyContents : Phrase :=
  { pattern := ["Liquify", "contents", "of", bowl], action := .liquefyContents }
def liquefy : Phrase := { pattern := ["Liquefy", .ingredient], action := .liquefy }
def liquify : Phrase := { pattern := ["Liquify", .ingredient], action := .liquefy }
def stirMinute : Phrase :=
  { pattern := ["Stir", bowl, "for", .number, "minute"], action := .stir, agreement := .singular }
def stirMinutes : Phrase :=
  { pattern := ["Stir", bowl, "for", .number, "minutes"], action := .stir, agreement := .plural }
def stirForMinute : Phrase :=
  { pattern := ["Stir", "for", .number, "minute"], action := .stir, agreement := .singular }
def stirForMinutes : Phrase :=
  { pattern := ["Stir", "for", .number, "minutes"], action := .stir, agreement := .plural }
def stirInto : Phrase :=
  { pattern := ["Stir", .ingredient, "into", bowl], action := .stirIngredient }
def mixBowl : Phrase := { pattern := ["Mix", bowl, "well"], action := .mix }
def mix : Phrase := { pattern := ["Mix", "well"], action := .mix }
def clean : Phrase := { pattern := ["Clean", bowl], action := .clean }
def pour : Phrase := { pattern := ["Pour", "contents", "of", bowl, "into", dish], action := .pour }
def setAside : Phrase := { pattern := ["Set", "aside"], action := .setAside }
def serveWith : Phrase := { pattern := ["Serve", "with", .recipe], action := .serveWith }
def refrigerate : Phrase := { pattern := ["Refrigerate"], action := .refrigerate }
def refrigerateHour : Phrase :=
  { pattern := ["Refrigerate", "for", .number, "hour"]
    action := .refrigerate
    agreement := .singular }
def refrigerateHours : Phrase :=
  { pattern := ["Refrigerate", "for", .number, "hours"]
    action := .refrigerate
    agreement := .plural }
def loopEndOf : Phrase :=
  { pattern := [.verb, .optional "the", .ingredient, "until", .verbed], action := .loopEnd }
def loopEnd : Phrase := { pattern := [.verb, "until", .verbed], action := .loopEnd }
def loopStart : Phrase := { pattern := [.verb, "the", .ingredient], action := .loopStart }

/-- Every phrase.  One that is more specific comes before those that would
swallow it. -/
def all : List Phrase :=
  [take, put, fold, addDryTo, addDry, addTo, removeFrom, combineInto, divideInto, add, remove,
    combine, divide, liquefyContents, liquifyContents, liquefy, liquify, stirMinute, stirMinutes,
    stirForMinute, stirForMinutes, stirInto, mixBowl, mix, clean, pour, setAside, serveWith,
    refrigerate, refrigerateHour, refrigerateHours, loopEndOf, loopEnd, loopStart]

/-! ## Reading -/

/-- What is wrong with the number of a phrase, if anything is. -/
def objection? (p : Phrase) (c : Captures) : Option ParseError.Cause :=
  let n := c.number.getD 0
  if p.agreement = .singular ∧ n ≠ 1 then some (.numberWithSingular n)
  else if p.agreement = .plural ∧ n = 1 then some .oneWithPlural
  else if p.action = .refrigerate ∧ c.number.isSome ∧ n < 1 then some .shortRefrigeration
  else if p.action = .stir ∧ n < 0 then some .negativeStirring
  else none

/-- The instruction a phrase asks for.  A vessel that is not named is the
first. -/
def instruction (p : Phrase) (c : Captures) (location : Location) : Instruction where
  action := p.action
  ingredient := c.ingredient
  name :=
    match p.action with
    | .serveWith => c.recipe
    | .loopStart | .loopEnd => c.verb
    | _ => []
  keyword := if p.action = .loopEnd then c.verbed.lower else []
  bowl := c.bowl.getD 1
  dish := c.dish.getD 1
  count :=
    match p.action with
    | .stir | .refrigerate => c.number
    | _ => none
  location

/-- The first phrase that a sentence fits, with what it picks out. -/
def find? (sentence : List Token) : Option (Phrase × Captures) :=
  all.findSome? fun p => (p.pattern.match? sentence).map (p, ·)

end Phrase

/-- The instruction that a sentence asks for, `none` if it fits no phrase.  An
objection to its number is placed at its first token. -/
def Instruction.read (sentence : List Token) : Except ParseError (Option Instruction) :=
  match sentence with
  | [] => .ok none
  | first :: _ =>
    match Phrase.find? sentence with
    | none => .ok none
    | some (phrase, captures) =>
      match phrase.objection? captures with
      | some cause => .error (first.error cause)
      | none => .ok (some (phrase.instruction captures first.location))

end Cookbook
