import Cookbook.Draft.Book

/-!
# Cookbook.Draft.Proofread

Reading a recipe book with an error stream at hand: another way for the grammar to
refuse a text.  A part that refuses writes where and why before reading is given up;
an objection to a statement is raised without a word, and the method writes it and
passes it on.

Each part comes to what it comes to without the stream, and writes the message of a
refusal and nothing else (`Reading.Tells`), so a book is refused with one line
(`Draft.proofread_eq`).
-/

namespace Cookbook

/-- A step that may write to the error stream and may refuse the text.  What it has
written stays written. -/
abbrev Remarking := ExceptT ParseError (StateM Text)

namespace Remarking

/-- Writes a line to the error stream. -/
def writeLine (line : Text) : Remarking Unit := modify fun log => log ++ (line ++ "\n")

/-- Refuses the text at a token, after writing where and why. -/
def complain (t : Token) (cause : ParseError.Cause) : Remarking α := do
  writeLine (t.location.text ++ " " ++ cause.message)
  throw (t.error cause)

/-- Goes on with a result.  An objection is written and passed on. -/
def relay (r : Except ParseError α) : Remarking α := do
  try ofExcept r
  catch e =>
    writeLine e.message
    throw e

end Remarking

instance : Refusing Remarking where
  refuse := Remarking.complain
  pass := Remarking.relay

/-- The recipes of a text, and what reading it writes to the error stream. -/
def Draft.proofread (text : Text) : Except ParseError (List Draft) × Text :=
  (Grammar.book (TokenStream.ofText text) : Remarking (List Draft)).run.run []

/-! ## One line for a refusal -/

namespace Remarking

/-- What is written for a result: the message of a refusal, and nothing else. -/
def remark : Except ParseError α → Text
  | .ok _ => []
  | .error e => e.message ++ "\n"

/-- Whether a step comes to a result and writes what is written for it. -/
def Tells (x : Remarking α) (r : Except ParseError α) : Prop :=
  ∀ log, x.run.run log = (r, log ++ remark r)

theorem tells_pure (a : α) : Tells (pure a) (.ok a) := by
  intro log
  rw [remark, List.append_nil]
  rfl

theorem tells_complain (t : Token) (cause : ParseError.Cause) :
    Tells (complain t cause : Remarking α) (.error (t.error cause)) := fun _ => rfl

section

variable {x : Remarking α} {f : α → Remarking β}

theorem tells_bind_of_error {e : ParseError} (hx : Tells x (.error e)) :
    Tells (x >>= f) (.error e) := by
  intro log
  rw [ExceptT.run_bind, StateT.run_bind, hx log]
  rfl

theorem tells_bind_of_ok {a : α} {r : Except ParseError β} (hx : Tells x (.ok a))
    (hf : Tells (f a) r) : Tells (x >>= f) r := by
  intro log
  rw [ExceptT.run_bind, StateT.run_bind, hx log, remark, List.append_nil]
  exact hf log

theorem tells_bind {r : Except ParseError α} {g : α → Except ParseError β} (hx : Tells x r)
    (hf : ∀ a, Tells (f a) (g a)) : Tells (x >>= f) (r >>= g) := by
  cases r with
  | error e => exact tells_bind_of_error hx
  | ok a => exact tells_bind_of_ok hx (hf a)

end

/-- A result is told as it is. -/
theorem tells_relay (r : Except ParseError α) : Tells (relay r) r := by
  intro log
  unfold relay
  cases r with
  | error e => rfl
  | ok a => exact tells_pure a log

end Remarking

namespace Reading

/-- Whether a step that may write reads what a silent one reads, and writes one line
if that refuses the text. -/
def Tells (p : ReadingT Remarking α) (r : Reading α) : Prop := ∀ s, Remarking.Tells (p s) (r s)

theorem tells_pure (a : α) : Tells (pure a) (pure a) := fun s => Remarking.tells_pure (a, s)

theorem tells_refuse (t : Token) (cause : ParseError.Cause) :
    Tells (refuse t cause : ReadingT Remarking α) (refuse t cause) :=
  fun _ => Remarking.tells_complain t cause

theorem tells_bind {p : ReadingT Remarking α} {r : Reading α} {f : α → ReadingT Remarking β}
    {g : α → Reading β} (hp : Tells p r) (hf : ∀ a, Tells (f a) (g a)) :
    Tells (p >>= f) (r >>= g) := fun s => Remarking.tells_bind (hp s) fun x => hf x.1 x.2

theorem tells_peek : Tells peek peek := fun _ => Remarking.tells_pure _

theorem tells_next : Tells next next := fun _ => Remarking.tells_pure _

theorem tells_takeWhile (p : Token → Bool) : Tells (takeWhile p) (takeWhile p) :=
  fun _ => Remarking.tells_pure _

theorem tells_line : Tells line line := tells_takeWhile _

theorem tells_atHeading (kind : Token.Kind) : Tells (atHeading kind) (atHeading kind) :=
  fun _ => Remarking.tells_pure _

theorem tells_atWords (first second : Text) :
    Tells (atWords first second) (atWords first second) :=
  fun _ => Remarking.tells_pure _

theorem tells_ofTokens {f : Token → List Token → Remarking (α × List Token)}
    {g : Token → List Token → Except ParseError (α × List Token)}
    (h : ∀ finish tokens, Remarking.Tells (f finish tokens) (g finish tokens)) :
    Tells (ofTokens f) (ofTokens g) :=
  fun s => Remarking.tells_bind (h s.finish s.ahead) fun _ => Remarking.tells_pure _

theorem tells_whenHere {here : ReadingT Remarking Bool} {here' : Reading Bool}
    {part : ReadingT Remarking α} {part' : Reading α} (absent : α) (hhere : Tells here here')
    (hpart : Tells part part') :
    Tells (whenHere here absent part) (whenHere here' absent part') := by
  refine tells_bind hhere fun b => ?_
  cases b
  · exact tells_pure absent
  · exact hpart

end Reading

namespace Grammar

open Reading

/-! ## The parts tell -/

theorem tells_newLineAfter (part : ParseError.Part) :
    Tells (newLineAfter part) (newLineAfter part) := by
  refine tells_bind tells_next fun t => ?_
  split
  · exact tells_pure ()
  · exact tells_refuse _ _

theorem tells_blankLineAfter (part : ParseError.Part) :
    Tells (blankLineAfter part) (blankLineAfter part) := by
  refine tells_bind tells_next fun t => ?_
  split
  · exact tells_pure ()
  · exact tells_refuse _ _

theorem tells_heading (part : ParseError.Part) : Tells (heading part) (heading part) := by
  refine tells_bind tells_next fun _ => tells_bind tells_next fun _ =>
    tells_bind tells_next fun t => ?_
  split
  · exact tells_pure ()
  · exact tells_refuse _ _

theorem tells_title : Tells title title := by
  refine tells_bind tells_peek fun first => tells_bind tells_line fun tokens => ?_
  cases tokens.getLast? with
  | none => exact tells_bind tells_peek fun t => tells_refuse _ _
  | some last =>
    dsimp only
    split
    · exact tells_refuse _ _
    · cases tokens.dropLast.find? Token.isStray with
      | some t => exact tells_refuse _ _
      | none => exact tells_pure _

theorem tells_atPart : Tells atPart atPart :=
  tells_bind (tells_atHeading _) fun _ => tells_bind (tells_atHeading _) fun _ =>
    tells_bind (tells_atWords _ _) fun _ => tells_bind (tells_atWords _ _) fun _ =>
      tells_pure _

theorem tells_optionalComment : Tells optionalComment optionalComment := by
  refine tells_bind tells_atPart fun b => ?_
  cases b
  · exact tells_bind (tells_takeWhile _) fun _ =>
      tells_bind (tells_blankLineAfter _) fun _ => tells_pure _
  · exact tells_pure _

theorem tells_splitMeasure (t : Token) (rest : List Token) :
    Remarking.Tells (Ingredient.splitMeasure t rest) (Ingredient.splitMeasure t rest) := by
  unfold Ingredient.splitMeasure
  split
  · rcases rest with _ | ⟨m, _ | ⟨u, name⟩⟩
    · exact Remarking.tells_complain _ _
    · exact Remarking.tells_complain _ _
    · dsimp only
      split
      · exact Remarking.tells_pure _
      · exact Remarking.tells_complain _ _
  · cases Ingredient.Kind.ofMeasure? t.lexeme with
    | none => exact Remarking.tells_pure _
    | some kind => cases rest <;> exact Remarking.tells_pure _

theorem tells_ofLine (first : Token) (others : List Token) :
    Remarking.Tells (Ingredient.ofLine first others) (Ingredient.ofLine first others) := by
  unfold Ingredient.ofLine
  cases (first :: others).find? Token.isStray with
  | some t => exact Remarking.tells_complain _ _
  | none =>
    rcases Ingredient.splitQuantity (first :: others) with ⟨value, _ | ⟨t, rest⟩⟩
    · exact Remarking.tells_complain _ _
    · exact Remarking.tells_bind (tells_splitMeasure t rest) fun _ => Remarking.tells_pure _

theorem tells_ingredientOf (stop : Token) (line : List Token) :
    Remarking.Tells (ingredientOf stop line) (ingredientOf stop line) := by
  cases line with
  | nil => exact Remarking.tells_complain _ _
  | cons first others => exact tells_ofLine first others

theorem tells_ingredientLines (finish : Token) (tokens line : List Token) :
    Remarking.Tells (ingredientLines finish tokens line) (ingredientLines finish tokens line) := by
  induction tokens generalizing line with
  | nil =>
    exact Remarking.tells_bind (tells_ingredientOf finish line) fun _ => Remarking.tells_pure _
  | cons t rest ih =>
    unfold ingredientLines
    split
    · refine Remarking.tells_bind (tells_ingredientOf t line) fun i => ?_
      split
      · exact Remarking.tells_bind (ih []) fun _ => Remarking.tells_pure _
      · exact Remarking.tells_pure _
    · exact ih _

theorem tells_ingredients : Tells ingredients ingredients :=
  tells_bind (tells_heading _) fun _ =>
    tells_bind (tells_ofTokens fun _ _ => tells_ingredientLines _ _ _) fun _ =>
      tells_bind (tells_blankLineAfter _) fun _ => tells_pure _

theorem tells_cookingTime : Tells cookingTime cookingTime := by
  refine tells_bind tells_peek fun first => tells_bind tells_line fun tokens => ?_
  cases cookingTimeOf? tokens with
  | none => exact tells_refuse _ _
  | some n => exact tells_bind (tells_newLineAfter _) fun _ => tells_pure _

theorem tells_oven : Tells oven oven := by
  refine tells_bind tells_peek fun first => tells_bind tells_line fun tokens => ?_
  rcases ovenOf? tokens with _ | ⟨degrees, _ | ⟨gas, _ | ⟨mark, _ | ⟨number, _ | ⟨_, _⟩⟩⟩⟩⟩
  · exact tells_refuse _ _
  · exact tells_bind (tells_newLineAfter _) fun _ => tells_pure _
  · exact tells_refuse _ _
  · exact tells_refuse _ _
  · dsimp only
    cases gasMarkOf? gas mark number with
    | none => exact tells_refuse _ _
    | some n => exact tells_bind (tells_newLineAfter _) fun _ => tells_pure _
  · exact tells_refuse _ _

theorem tells_unfinished (sentence rest : List Token) :
    Remarking.Tells
      (match sentence.getLast? with
        | some last => Refusing.refuse last .unfinishedStatement
        | none => return (([] : List Instruction), rest))
      (match sentence.getLast? with
        | some last => Refusing.refuse last .unfinishedStatement
        | none => return ([], rest)) := by
  cases sentence.getLast? with
  | some last => exact Remarking.tells_complain _ _
  | none => exact Remarking.tells_pure _

theorem tells_statements (tokens sentence : List Token) :
    Remarking.Tells (statements tokens sentence) (statements tokens sentence) := by
  induction tokens generalizing sentence with
  | nil => exact tells_unfinished sentence []
  | cons t rest ih =>
    unfold statements
    cases t.kind with
    | lineBreak => exact ih sentence
    | blankLine => exact tells_unfinished sentence (t :: rest)
    | finish => exact tells_unfinished sentence (t :: rest)
    | unexpected => exact Remarking.tells_complain _ _
    | period =>
      cases sentence with
      | nil => exact Remarking.tells_complain _ _
      | cons first others =>
        refine Remarking.tells_bind (Remarking.tells_relay _) fun read => ?_
        cases read with
        | none => exact Remarking.tells_complain _ _
        | some i => exact Remarking.tells_bind (ih []) fun _ => Remarking.tells_pure _
    | serves =>
      dsimp only
      split
      · exact Remarking.tells_pure _
      · exact ih _
    | word | number | ingredients | method => exact ih _

theorem tells_method : Tells method method := by
  refine tells_bind (tells_atHeading _) fun b => ?_
  cases b
  · exact tells_bind tells_peek fun _ => tells_refuse _ _
  · refine tells_bind (tells_heading _) fun _ =>
      tells_bind (tells_ofTokens fun _ _ => tells_statements _ _) fun _ => ?_
    split
    · exact tells_bind tells_peek fun _ => tells_refuse _ _
    · exact tells_pure _

theorem tells_toServes : Tells toServes toServes := by
  intro s
  unfold toServes
  split <;> exact Remarking.tells_pure _

theorem tells_serves : Tells serves serves := by
  refine tells_bind tells_toServes fun _ => tells_bind tells_peek fun _ => ?_
  split
  · refine tells_bind tells_next fun _ => tells_bind tells_next fun count => ?_
    cases count.kind with
    | number n =>
      dsimp only
      split
      · exact tells_refuse _ _
      · refine tells_bind tells_next fun stop => ?_
        split
        · refine tells_bind tells_peek fun t => ?_
          split
          · exact tells_pure _
          · exact tells_refuse _ _
        · exact tells_refuse _ _
    | _ => exact tells_refuse _ _
  · exact tells_pure _

theorem tells_body (title : Text) (location : Location) :
    Tells (body title location) (body title location) :=
  tells_bind (tells_newLineAfter _) fun _ => tells_bind tells_optionalComment fun _ =>
    tells_bind (tells_whenHere _ (tells_atHeading _) tells_ingredients) fun _ =>
      tells_bind (tells_whenHere _ (tells_atWords _ _) tells_cookingTime) fun _ =>
        tells_bind (tells_whenHere _ (tells_atWords _ _) tells_oven) fun _ =>
          tells_bind tells_method fun _ => tells_bind tells_serves fun _ => tells_pure _

theorem tells_recipe : Tells recipe recipe :=
  tells_bind tells_title fun _ => tells_body _ _

/-! ## Books -/

theorem tells_moreRecipes (s : TokenStream) :
    Remarking.Tells (moreRecipes s) (moreRecipes s) := by
  unfold moreRecipes
  dsimp only
  split
  · exact Remarking.tells_pure _
  · split
    · refine Remarking.tells_bind (tells_recipe _) fun r => ?_
      split
      · exact Remarking.tells_bind (tells_moreRecipes _) fun _ => Remarking.tells_pure _
      · exact Remarking.tells_pure _
    · exact Remarking.tells_complain _ _
termination_by s.ahead.length

theorem tells_recipes (s : TokenStream) : Remarking.Tells (recipes s) (recipes s) :=
  Remarking.tells_bind (tells_recipe s) fun _ =>
    Remarking.tells_bind (tells_moreRecipes _) fun _ => Remarking.tells_pure _

theorem tells_book (s : TokenStream) : Remarking.Tells (book s) (book s) := by
  unfold book
  dsimp only
  split
  · exact Remarking.tells_complain _ _
  · exact tells_recipes _

end Grammar

/-- Reading with an error stream comes to the same recipes or the same refusal, and
writes one line for a refusal. -/
theorem Draft.proofread_eq (text : Text) :
    Draft.proofread text = (Draft.parse text, Remarking.remark (Draft.parse text)) :=
  Grammar.tells_book (TokenStream.ofText text) []

end Cookbook
