import Cookbook.Draft.Grammar

/-!
# Cookbook.Proofs.Draft.Layout

How the tokens of a recipe book are laid out, said without reading them: for
each part of a recipe, which tokens it consists of and what they stand for.

```
book        = [break] recipe (blank recipe)* [break] end
recipe      = title break [comment] [ingredients] [cooking time] [oven] method [serves]
title       = word+ "."
comment     = any* blank
ingredients = "Ingredients" "." line-break line (line-break line)* blank
line        = [number] [["heaped" | "level"] measure] name
time        = "Cooking" "time:" number ("minute" | "minutes" | "hour" | "hours") "." break
oven        = "Pre-heat" "oven" "to" number "degrees" "Celsius" [gas mark] "." break
gas mark    = "(gas" "mark" integer ")"
method      = "Method" "." line-break (statement ".")+
serves      = [blank] "Serves" number "."
```

`Parts` holds the tokens of a recipe part by part, and `Parts.Yields` says what
recipe they make up.  `Book` puts recipes together; what has to hold between a
recipe and the tokens behind it is a parameter, and `Parts.SetApart` is what
reading a book asks for.
-/

namespace Cookbook

namespace Layout

open Text

/-- A part, or nothing and a value that stands for it. -/
inductive Optional (part : List Token → α → Prop) (absent : α) : List Token → α → Prop where
  | here {ts : List Token} {a : α} (h : part ts a) : Optional part absent ts a
  | missing : Optional part absent [] absent

/-- At most one end of a line. -/
inductive Gap : List Token → Prop where
  | none : Gap []
  | one {t : Token} (h : t.isLineEnd) : Gap [t]

/-! ## Title and comment -/

/-- Words and the period behind them, with the place of the first word. -/
inductive Title : List Token → Text → Location → Prop where
  | intro {first stop : Token} {others : List Token}
    (hwords : ∀ t ∈ first :: others, t.isBreak = false ∧ t.isStray = false)
    (hstop : stop.kind = .period) :
    Title (first :: (others ++ [stop])) (Token.join (first :: others)) first.location

/-- Tokens of any kind up to a blank line. -/
inductive Comment : List Token → Text → Prop where
  | intro {ts : List Token} {blank : Token} (hts : ∀ t ∈ ts, t.kind ≠ .blankLine)
    (hblank : blank.kind = .blankLine) : Comment (ts ++ [blank]) (Grammar.commentText ts)

/-! ## Ingredients -/

/-- A number in front of an ingredient.  What begins with a number has one. -/
inductive Quantity : List Token → List Token → Option Int64 → Prop where
  | number {t : Token} {n : Int64} {rest : List Token} (h : t.kind = .number n) :
    Quantity [t] rest (some n)
  | none {rest : List Token} (h : ∀ t n, rest.head? = some t → t.kind ≠ .number n) :
    Quantity [] rest none

/-- Whether a token says that a measure is heaped or level. -/
def Heaps (t : Token) : Prop := t.lexeme = "heaped" ∨ t.lexeme = "level"

/-- A measure in front of a name, and the kind of ingredient it tells.  A word
alone is a name, also if it is that of a measure. -/
inductive Measure : List Token → List Token → Ingredient.Kind → Prop where
  | heaped {h m : Token} {name : List Token} {kind : Ingredient.Kind} (hh : Heaps h)
    (hm : Ingredient.Kind.ofMeasure? m.lexeme = some kind) : Measure [h, m] name .dry
  | word {m : Token} {name : List Token} {kind : Ingredient.Kind} (hh : ¬ Heaps m)
    (hm : Ingredient.Kind.ofMeasure? m.lexeme = some kind) : Measure [m] name kind
  | none {t : Token} {others : List Token} (hh : ¬ Heaps t)
    (hm : Ingredient.Kind.ofMeasure? t.lexeme = none ∨ others = []) :
    Measure [] (t :: others) .either

/-- A line that declares an ingredient. -/
inductive Line : List Token → Ingredient → Prop where
  | intro {quantity measure name : List Token} {value : Option Int64} {kind : Ingredient.Kind}
    (hplain : ∀ t ∈ quantity ++ (measure ++ name), t.isBreak = false ∧ t.isStray = false)
    (hquantity : Quantity quantity (measure ++ name) value) (hmeasure : Measure measure name kind)
    (hname : name ≠ []) :
    Line (quantity ++ (measure ++ name)) { name := Token.join name, value, kind }

/-- Lines with single line breaks between them. -/
inductive Lines : List Token → List Ingredient → Prop where
  | last {ts : List Token} {i : Ingredient} (h : Line ts i) : Lines ts [i]
  | cons {ts rest : List Token} {br : Token} {i : Ingredient} {is : List Ingredient} (h : Line ts i)
    (hbr : br.kind = .lineBreak) (hrest : Lines rest is) : Lines (ts ++ br :: rest) (i :: is)

/-- The ingredient list with its heading and the blank line behind it. -/
inductive Ingredients : List Token → List Ingredient → Prop where
  | intro {heading stop br blank : Token} {ts : List Token} {is : List Ingredient}
    (hheading : heading.kind = .ingredients) (hstop : stop.kind = .period)
    (hbr : br.kind = .lineBreak) (hlines : Lines ts is) (hblank : blank.kind = .blankLine) :
    Ingredients (heading :: stop :: br :: (ts ++ [blank])) is

/-! ## Cooking time and oven -/

/-- The cooking time with the break behind it. -/
inductive CookingTime : List Token → Option Int64 → Prop where
  | intro {cooking time number unit stop br : Token} {n : Int64}
    (hcooking : cooking.lexeme = "Cooking") (htime : time.lexeme = "time:")
    (hnumber : number.kind = .number n)
    (hunit : unit.lexeme ∈ [ofString "minute", "minutes", "hour", "hours"])
    (hstop : stop.kind = .period) (hbr : br.isLineEnd) :
    CookingTime [cooking, time, number, unit, stop, br] (some n)

/-- A whole number in decimal notation, leading zeros allowed. -/
inductive Numeral : Text → Int → Prop where
  | natural {digits : Text} (hne : digits ≠ []) (hdigits : digits.all isDigit) :
    Numeral digits (Decimal.value digits)
  | negative {digits : Text} (hne : digits ≠ []) (hdigits : digits.all isDigit) :
    Numeral (45 :: digits) (-Decimal.value digits)

/-- The gas mark between brackets; the number has the second one behind it. -/
inductive GasMark : List Token → Option Int64 → Prop where
  | intro {gas mark number : Token} {digits : Text} {n : Int64} (hgas : gas.lexeme = "(gas")
    (hmark : mark.lexeme = "mark") (hnumber : number.lexeme = digits ++ ofString ")")
    (hn : Numeral digits n.toInt) : GasMark [gas, mark, number] (some n)

/-- The oven temperature and the gas mark with the break behind them. -/
inductive Oven : List Token → Option Int64 × Option Int64 → Prop where
  | intro {preheat oven towards number degrees celsius stop br : Token} {gas : List Token}
    {n : Int64} {m : Option Int64} (hpreheat : preheat.lexeme = "Pre-heat")
    (hoven : oven.lexeme = "oven") (htowards : towards.lexeme = "to")
    (hnumber : number.kind = .number n) (hdegrees : degrees.lexeme = "degrees")
    (hcelsius : celsius.lexeme = "Celsius") (hgas : Optional GasMark none gas m)
    (hstop : stop.kind = .period) (hbr : br.isLineEnd) :
    Oven (preheat :: oven :: towards :: number :: degrees :: celsius :: (gas ++ [stop, br]))
      (some n, m)

/-! ## Method and diners -/

/-- The heading of a method. -/
inductive Heading : List Token → Prop where
  | intro {heading stop br : Token} (hheading : heading.kind = .method)
    (hstop : stop.kind = .period) (hbr : br.kind = .lineBreak) : Heading [heading, stop, br]

/-- Tokens in front of a period that ask for an instruction. -/
structure Statement (run : List Token) (i : Instruction) : Prop where
  read : Instruction.read run = .ok (some i)
  expected : ∀ t ∈ run, t.kind ≠ .period ∧ t.kind ≠ .unexpected
  first : ∀ t, run.head? = some t → t.kind ≠ .serves

/-- Statements with their periods. -/
inductive Sentences : List Token → List Instruction → Prop where
  | nil : Sentences [] []
  | cons {run rest : List Token} {stop : Token} {i : Instruction} {is : List Instruction}
    (h : Statement run i) (hstop : stop.kind = .period) (hrest : Sentences rest is) :
    Sentences (run ++ stop :: rest) (i :: is)

/-- The statements of a method, of which there is at least one.  Line breaks
among them mean nothing. -/
structure Statements (ts : List Token) (is : List Instruction) : Prop where
  ne_nil : is ≠ []
  sentences : Sentences (ts.filter (·.kind ≠ .lineBreak)) is

/-- The number of diners, which may stand in a paragraph of its own. -/
inductive Serves : List Token → Option Int64 → Prop where
  | intro {blank : List Token} {serves count stop : Token} {n : Int64}
    (hblank : blank = [] ∨ ∃ t, blank = [t] ∧ t.kind = .blankLine) (hserves : serves.kind = .serves)
    (hcount : count.kind = .number n) (hn : 1 ≤ n) (hstop : stop.kind = .period) :
    Serves (blank ++ [serves, count, stop]) (some n)

/-! ## Recipes -/

/-- The parts that are told by the two tokens they open with. -/
inductive Opening where
  | ingredients
  | cookingTime
  | oven
  | method
deriving DecidableEq

/-- Whether a part opens some tokens. -/
def Opening.Opens : Opening → List Token → Prop
  | ingredients, a :: b :: _ => a.kind = .ingredients ∧ b.kind = .period
  | cookingTime, a :: b :: _ => a.lexeme = "Cooking" ∧ b.lexeme = "time:"
  | oven, a :: b :: _ => a.lexeme = "Pre-heat" ∧ b.lexeme = "oven"
  | method, a :: b :: _ => a.kind = .method ∧ b.kind = .period
  | _, _ => False

/-- The tokens of a recipe, part by part.  A part that is missing has none. -/
structure Parts where
  title : List Token
  gap : Token
  comment : List Token := []
  ingredients : List Token := []
  cookingTime : List Token := []
  oven : List Token := []
  heading : List Token
  statements : List Token
  serves : List Token := []

namespace Parts

/-- The tokens behind the comment. -/
def contents (p : Parts) : List Token :=
  p.ingredients ++ (p.cookingTime ++ (p.oven ++ (p.heading ++ (p.statements ++ p.serves))))

/-- All tokens of a recipe. -/
def tokens (p : Parts) : List Token := p.title ++ p.gap :: (p.comment ++ p.contents)

/-- Whether the tokens of a recipe make up a draft.  A comment is there unless
one of the other parts follows the title. -/
structure Yields (p : Parts) (d : Draft) : Prop where
  title : Title p.title d.title d.location
  gap : p.gap.isLineEnd
  comment : Optional Comment [] p.comment d.comment
  comment_eq_nil_iff : p.comment = [] ↔ ∃ o : Opening, o.Opens (p.comment ++ p.contents)
  ingredients : Optional Ingredients [] p.ingredients d.ingredients
  cookingTime : Optional CookingTime none p.cookingTime d.cookingTime
  oven : Optional Oven (none, none) p.oven (d.oven, d.gasMark)
  heading : Heading p.heading
  statements : Statements p.statements d.method
  serves : Optional Serves none p.serves d.serves

/-- Whether a recipe can be told from what follows it: its method is a single
paragraph, and if it serves nobody, no paragraph that begins with `Serves` is
next. -/
structure SetApart (p : Parts) (rest : List Token) : Prop where
  paragraph : ∀ t ∈ p.statements, t.kind ≠ .blankLine
  nobody : p.serves = [] → ∀ g t more, rest = g :: t :: more → g.kind = .blankLine →
    t.kind ≠ .serves

end Parts

/-! ## Books -/

/-- Recipes with a blank line between two of them, and the break behind the
last.  Each satisfies a condition together with all that follows it. -/
inductive Recipes (fits : Parts → List Token → Prop) : List Token → List Draft → Prop where
  | last {p : Parts} {d : Draft} {trail : List Token} (hp : p.Yields d) (hfits : fits p trail)
    (htrail : Gap trail) : Recipes fits (p.tokens ++ trail) [d]
  | cons {p : Parts} {d : Draft} {blank : Token} {rest : List Token} {ds : List Draft}
    (hp : p.Yields d) (hfits : fits p (blank :: rest)) (hblank : blank.kind = .blankLine)
    (hrest : Recipes fits rest ds) : Recipes fits (p.tokens ++ blank :: rest) (d :: ds)

/-- A whole book, the end of the text included. -/
inductive Book (fits : Parts → List Token → Prop) : List Token → List Draft → Prop where
  | intro {lead ts : List Token} {finish : Token} {ds : List Draft} (hlead : Gap lead)
    (hrecipes : Recipes fits ts ds) (hfinish : finish.kind = .finish) :
    Book fits (lead ++ (ts ++ [finish])) ds

end Layout

end Cookbook
