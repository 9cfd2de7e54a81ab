import Cookbook.Draft
import Cookbook.Ingredient.Line
import Cookbook.Phrase
import Cookbook.Reading

/-!
# Cookbook.Draft.Grammar

Reading a recipe, part by part.  A recipe holds, in this order,

```
title break [comment blank] [ingredients blank] [cooking time break] [oven break] method [serves]
```

where a comment is anything up to the next blank line that none of the later
parts begins.  Line breaks inside a method mean nothing.  Each part refuses a text
in whatever way it is read (`Refusing`).
-/

namespace Cookbook

namespace Grammar

open Reading

variable {m : Type → Type} [Refusing m]

/-! ## Breaks between parts -/

/-- Takes the break that has to follow a part. -/
def newLineAfter (part : ParseError.Part) : ReadingT m Unit := do
  let t ← next
  if t.isLineEnd then return () else refuse t (.noNewLineAfter part t.kind)

/-- Takes the blank line that has to follow a part. -/
def blankLineAfter (part : ParseError.Part) : ReadingT m Unit := do
  let t ← next
  if t.kind = .blankLine then return () else refuse t (.noBlankLineAfter part t.kind)

/-- Takes a heading with its period and the single line break behind it. -/
def heading (part : ParseError.Part) : ReadingT m Unit := do
  let _ ← next
  let _ ← next
  let t ← next
  if t.kind = .lineBreak then return () else refuse t (.noNewLineAfter part t.kind)

/-! ## Title and comment -/

/-- A line of words that ends with its only period. -/
def title : ReadingT m (Text × Location) := do
  let first ← peek
  let tokens ← line
  match tokens.getLast? with
  | none => refuse (← peek) .noTitle
  | some last =>
    let words := tokens.dropLast
    if words.isEmpty || last.kind ≠ .period then refuse last .unfinishedTitle
    else
      match words.find? Token.isStray with
      | some t => refuse t (.strayInTitle t.kind)
      | none => return (Token.join words, first.location)

/-- The text of some tokens from the first to the last that is no line break,
blanks between them included. -/
def commentText (tokens : List Token) : Text :=
  let trimmed := (tokens.dropWhile (·.isBreak)).reverse.dropWhile (·.isBreak) |>.reverse
  match trimmed with
  | [] => []
  | first :: others => first.lexeme ++ others.flatMap fun t => t.blanks ++ t.lexeme

/-- Everything up to the next blank line, which has to be there. -/
def comment : ReadingT m Text := do
  let tokens ← takeWhile fun t => t.kind ≠ .blankLine && t.kind ≠ .finish
  blankLineAfter .comments
  return commentText tokens

/-- Whether the stream begins with one of the parts that may follow a title. -/
def atPart : ReadingT m Bool := do
  return (← atHeading .ingredients) || (← atHeading .method) ||
    (← atWords "Cooking" "time:") || (← atWords "Pre-heat" "oven")

/-- A comment, unless another part begins. -/
def optionalComment : ReadingT m Text := do
  if ← atPart then return [] else comment

/-! ## Ingredients -/

/-- The ingredient of a line that ends at the given token. -/
def ingredientOf (stop : Token) : List Token → m Ingredient
  | [] => Refusing.refuse stop .noIngredient
  | first :: others => Ingredient.ofLine first others

/-- The ingredients of the lines up to the first break that is not a line
break, or up to the end of the book.  The last argument holds the tokens of the
line that is being read. -/
def ingredientLines (finish : Token) : List Token → List Token → m (List Ingredient × List Token)
  | [], line => do
    let i ← ingredientOf finish line
    return ([i], [])
  | t :: rest, line =>
    if t.isBreak then do
      let i ← ingredientOf t line
      if t.kind = .lineBreak then
        let (is, rest') ← ingredientLines finish rest []
        return (i :: is, rest')
      else return ([i], t :: rest)
    else ingredientLines finish rest (line ++ [t])

/-- The ingredient list with its heading. -/
def ingredients : ReadingT m (List Ingredient) := do
  heading .ingredientsHeading
  let is ← ofTokens fun finish ahead => ingredientLines finish ahead []
  blankLineAfter .ingredientList
  return is

/-! ## Cooking time and oven -/

/-- The number of a line such as `Cooking time: 25 minutes.` -/
def cookingTimeOf? : List Token → Option Int64
  | [_, time, number, unit, stop] =>
    match number.kind with
    | .number n =>
      if time.lexeme = "time:" ∧ stop.kind = .period ∧
          (unit.lexeme = "minute" ∨ unit.lexeme = "minutes" ∨
            unit.lexeme = "hour" ∨ unit.lexeme = "hours")
      then some n
      else none
    | _ => none
  | _ => none

/-- The cooking time with its break. -/
def cookingTime : ReadingT m (Option Int64) := do
  let first ← peek
  let tokens ← line
  match cookingTimeOf? tokens with
  | none => refuse first .badCookingTime
  | some n =>
    newLineAfter .cookingTime
    return some n

/-- The degrees of a line such as `Pre-heat oven to 180 degrees Celsius.`, and
what stands between them and the period. -/
def ovenOf? : List Token → Option (Int64 × List Token)
  | _ :: oven :: towards :: number :: degrees :: celsius :: others =>
    match number.kind with
    | .number n =>
      if oven.lexeme = "oven" ∧ towards.lexeme = "to" ∧ degrees.lexeme = "degrees" ∧
          celsius.lexeme = "Celsius" ∧ (others.getLast?.map (·.kind)) = some .period
      then some (n, others.dropLast)
      else none
    | _ => none
  | _ => none

/-- The mark of `(gas mark 4)`, where the last token holds the bracket. -/
def gasMarkOf? (gas mark number : Token) : Option Int64 :=
  if gas.lexeme = "(gas" ∧ mark.lexeme = "mark" then
    match Decimal.leadingInt64? number.lexeme with
    | some (n, rest) => if rest = ")" then some n else none
    | none => none
  else none

/-- The oven temperature and the gas mark with their break. -/
def oven : ReadingT m (Option Int64 × Option Int64) := do
  let first ← peek
  let tokens ← line
  match ovenOf? tokens with
  | some (degrees, []) =>
    newLineAfter .oven
    return (some degrees, none)
  | some (degrees, [gas, mark, number]) =>
    match gasMarkOf? gas mark number with
    | none => refuse gas .badGasMark
    | some n =>
      newLineAfter .oven
      return (some degrees, some n)
  | _ => refuse first .badOven

/-! ## Method -/

/-- The statements of a method, up to the blank line, the end of the book or
the heading `Serves` that ends it.  The second argument holds the words of the
statement that is being read. -/
def statements : List Token → List Token → m (List Instruction × List Token)
  | [], sentence =>
    match sentence.getLast? with
    | some last => Refusing.refuse last .unfinishedStatement
    | none => return ([], [])
  | t :: rest, sentence =>
    match t.kind with
    | .lineBreak => statements rest sentence
    | .blankLine | .finish =>
      match sentence.getLast? with
      | some last => Refusing.refuse last .unfinishedStatement
      | none => return ([], t :: rest)
    | .unexpected => Refusing.refuse t (.strayInMethod t.lexeme)
    | .period =>
      match sentence with
      | [] => Refusing.refuse t .emptyStatement
      | first :: _ => do
        match ← Refusing.pass (Instruction.read sentence) with
        | none => Refusing.refuse first (.unknownStatement (Token.join sentence))
        | some i =>
          let (is, rest') ← statements rest []
          return (i :: is, rest')
    | .serves =>
      if sentence.isEmpty then return ([], t :: rest) else statements rest (sentence ++ [t])
    | _ => statements rest (sentence ++ [t])

/-- The method with its heading; it holds at least one statement. -/
def method : ReadingT m (List Instruction) := do
  if ← atHeading .method then
    heading .methodHeading
    let is ← ofTokens fun _ ahead => statements ahead []
    if is.isEmpty then refuse (← peek) .noStatement else return is
  else
    let t ← peek
    refuse t (.noMethod t.kind)

/-- Takes the blank line in front of `Serves`, if `Serves` stands behind it. -/
def toServes : ReadingT m Unit := fun s =>
  if s.peek.kind = .blankLine ∧ (s.drop 1).peek.kind = .serves then pure ((), s.drop 1)
  else pure ((), s)

/-- The number of diners in `Serves 4.`, if the recipe is served. -/
def serves : ReadingT m (Option Int64) := do
  toServes
  if (← peek).kind = .serves then
    let _ ← next
    let count ← next
    match count.kind with
    | .number n =>
      if n < 1 then refuse count .noDiners
      else
        let stop ← next
        if stop.kind = .period then
          let t ← peek
          if t.isBreak then return some n else refuse t .noNewLineAfterServes
        else refuse stop .noPeriodAfterDiners
    | _ => refuse count .noDiners
  else return none

/-! ## Recipes -/

/-- What follows the title of a recipe. -/
def body (title : Text) (location : Location) : ReadingT m Draft := do
  newLineAfter .title
  let comment ← optionalComment
  let ingredients ← whenHere (atHeading .ingredients) [] ingredients
  let cookingTime ← whenHere (atWords "Cooking" "time:") none cookingTime
  let (oven, gasMark) ← whenHere (atWords "Pre-heat" "oven") (none, none) oven
  let method ← method
  let serves ← serves
  return { title, location, comment, ingredients, cookingTime, oven, gasMark, method, serves }

/-- One recipe. -/
def recipe : ReadingT m Draft := do
  let (name, location) ← title
  body name location

end Grammar

end Cookbook
