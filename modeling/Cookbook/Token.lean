import Cookbook.Location

/-!
# Cookbook.Token

The pieces that a recipe book is made of: words, numbers, periods and breaks
between lines.  The kind of a token is a function of its lexeme
(`Token.Kind.ofLexeme`), so a book has one reading as a sequence of tokens.
-/

namespace Cookbook

/-- What a token is.  Three words have a kind of their own because they open a
section; inside a sentence they are words like any other. -/
inductive Token.Kind where
  | word
  | number (value : Int64)
  | period
  | lineBreak
  | blankLine
  | ingredients
  | method
  | serves
  | finish
  | unexpected
deriving DecidableEq

namespace Token.Kind

/-- The name of a kind, as messages show it. -/
def name : Kind → Text
  | word => "Word"
  | number _ => "Number"
  | period => "Period"
  | lineBreak => "LineBreak"
  | blankLine => "BlankLine"
  | ingredients => "Ingredients"
  | method => "Method"
  | serves => "Serves"
  | finish => "End"
  | unexpected => "Unexpected"

/-- A run of digits is a number if it is a 64-bit number, and out of place
otherwise. -/
def ofDigits (t : Text) : Kind :=
  match Decimal.int64? (Decimal.value t) with
  | some n => number n
  | none => unexpected

/-- A word by itself, or the heading it is. -/
def ofWord (t : Text) : Kind :=
  if t = "Ingredients" then ingredients
  else if t = "Method" then method
  else if t = "Serves" then serves
  else word

/-- The kind of the token with the given lexeme. -/
def ofLexeme (t : Text) : Kind :=
  match t with
  | [] => finish
  | b :: rest =>
    if b = Text.lineFeed then
      if rest.contains Text.lineFeed then blankLine else lineBreak
    else if b = Text.fullStop then period
    else if t.all Text.isDigit then ofDigits t
    else ofWord t

theorem ofDigits_ne_finish (t : Text) : ofDigits t ≠ finish := by
  simp only [ofDigits]
  split <;> simp

theorem ofWord_ne_finish (t : Text) : ofWord t ≠ finish := by
  simp only [ofWord]
  repeat' split
  all_goals simp

/-- Only the empty lexeme ends a book. -/
theorem ofLexeme_eq_finish_iff (t : Text) : ofLexeme t = finish ↔ t = [] := by
  cases t with
  | nil => simp [ofLexeme]
  | cons b rest =>
    simp only [ofLexeme, reduceCtorEq, iff_false]
    repeat' split
    all_goals simp [ofDigits_ne_finish, ofWord_ne_finish]

end Token.Kind

/-- A lexeme with its kind, its place and the horizontal blanks in front of it. -/
structure Token where
  kind : Token.Kind
  lexeme : Text
  location : Location := {}
  blanks : Text := []
deriving DecidableEq

namespace Token

/-- Headings are words once they stand inside a sentence. -/
def isWord (t : Token) : Bool :=
  match t.kind with
  | .word | .ingredients | .method | .serves => true
  | _ => false

/-- The end of a line, of a paragraph or of the book. -/
def isBreak (t : Token) : Bool :=
  match t.kind with
  | .lineBreak | .blankLine | .finish => true
  | _ => false

/-- The end of a line or of a paragraph. -/
def isLineEnd (t : Token) : Bool :=
  match t.kind with
  | .lineBreak | .blankLine => true
  | _ => false

/-- A token that no title and no ingredient may hold. -/
def isStray (t : Token) : Bool :=
  match t.kind with
  | .period | .unexpected => true
  | _ => false

/-- The form `Word('sugar')@3:12`; breaks are shown without their lexeme. -/
def describe (t : Token) : Text :=
  let shown : Text := if t.isBreak then [] else "('" ++ t.lexeme ++ "')"
  t.kind.name ++ shown ++ "@" ++ t.location.text

/-- The lexemes of some tokens with single spaces between them.  What is joined
so far gets a space only when it is not empty.  It is kept with its last byte
first, so that a lexeme is put behind it without going through it again. -/
def join (tokens : List Token) : Text :=
  (tokens.foldl (fun joined t =>
    t.lexeme.reverseAux (if joined.isEmpty then [] else Text.space :: joined)) []).reverse

theorem join_eq_foldl (tokens : List Token) :
    join tokens = tokens.foldl
      (fun joined t => (if joined.isEmpty then [] else joined ++ [Text.space]) ++ t.lexeme) [] := by
  have hreverse (backwards : Text) :
      (tokens.foldl (fun joined t =>
        t.lexeme.reverseAux (if joined.isEmpty then [] else Text.space :: joined))
        backwards).reverse =
      tokens.foldl
        (fun joined t => (if joined.isEmpty then [] else joined ++ [Text.space]) ++ t.lexeme)
        backwards.reverse := by
    induction tokens generalizing backwards with
    | nil => rfl
    | cons t ts ih =>
      rw [List.foldl_cons, ih, List.foldl_cons]
      cases backwards <;> simp
  exact hreverse []

end Token

end Cookbook
