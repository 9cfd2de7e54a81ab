import Cookbook.Token

/-!
# Cookbook.Token.Cursor

Reading a text token by token.

* `Cursor` is a position in a text; `Cursor.next` takes the token that begins
  there, after its horizontal blanks.
* `TokenStream` holds every token that lies ahead; reading past the last one
  gives the token of kind `finish` again and again.
* `Reader` is a cursor with one mark to go back to.

A token other than `finish` is never empty (`Cursor.length_rest_next_lt`), so
the tokens of a text are finitely many.
-/

namespace Cookbook

open Text

/-! ## Lexemes -/

/-- The break at the start of a text: its white bytes up to the last line feed
among them. -/
def Token.breakRun (t : Text) : Text := ((t.takeWhile isWhite).reverse.dropWhile isBlank).reverse

/-- The longest lexeme at the start of a text that begins with no blank. -/
def Token.lexemeOf : Text → Text
  | [] => []
  | b :: rest =>
    if b = lineFeed then Token.breakRun (b :: rest)
    else if b = fullStop then [b]
    else b :: rest.takeWhile isWordByte

theorem Token.breakRun_cons_ne_nil (rest : Text) : breakRun (lineFeed :: rest) ≠ [] := by
  have hw : isWhite lineFeed = true := by decide
  simp only [breakRun, List.takeWhile_cons, hw, if_true, ne_eq, List.reverse_eq_nil_iff,
    List.reverse_cons, List.dropWhile_append]
  split <;> simp_all [isBlank_lineFeed]

/-- A text that is not empty has a lexeme that is not empty. -/
theorem Token.lexemeOf_ne_nil {t : Text} (h : t ≠ []) : lexemeOf t ≠ [] := by
  match t, h with
  | b :: rest, _ =>
    simp only [lexemeOf]
    split
    · next hb => subst hb; exact breakRun_cons_ne_nil rest
    · split <;> simp

/-- A break lies at the start of its text. -/
theorem Token.exists_breakRun_append (t : Text) : ∃ rest, breakRun t ++ rest = t := by
  have h : breakRun t ++ ((t.takeWhile isWhite).reverse.takeWhile isBlank).reverse =
      t.takeWhile isWhite := by
    rw [breakRun, ← List.reverse_append, List.takeWhile_append_dropWhile, List.reverse_reverse]
  refine ⟨((t.takeWhile isWhite).reverse.takeWhile isBlank).reverse ++ t.dropWhile isWhite, ?_⟩
  rw [← List.append_assoc, h, List.takeWhile_append_dropWhile]

/-- A lexeme lies at the start of its text. -/
theorem Token.exists_lexemeOf_append (t : Text) : ∃ rest, lexemeOf t ++ rest = t := by
  cases t with
  | nil => exact ⟨[], rfl⟩
  | cons b rest =>
    simp only [lexemeOf]
    split
    · exact exists_breakRun_append _
    · split
      · exact ⟨rest, rfl⟩
      · exact ⟨rest.dropWhile isWordByte, by simp [List.takeWhile_append_dropWhile]⟩

/-! ## Cursors -/

/-- A position in a text: what is still unread, and where that begins. -/
structure Cursor where
  rest : Text
  location : Location := Location.start
deriving DecidableEq

namespace Cursor

/-- The start of a book; a NUL byte ends it. -/
def start (book : Text) : Cursor := { rest := book.untilNul }

/-- The token at a cursor and the cursor behind it. -/
def next (c : Cursor) : Token × Cursor :=
  let blanks := c.rest.takeWhile isBlank
  let rest := c.rest.dropWhile isBlank
  let location := c.location.past blanks
  let lexeme := Token.lexemeOf rest
  ({ kind := Token.Kind.ofLexeme lexeme, lexeme, location, blanks },
    { rest := rest.drop lexeme.length, location := location.past lexeme })

/-- Every token but `finish` takes something off the text. -/
theorem length_rest_next_lt {c : Cursor} (h : c.next.1.kind ≠ .finish) :
    c.next.2.rest.length < c.rest.length := by
  simp only [next, ne_eq, Token.Kind.ofLexeme_eq_finish_iff] at h ⊢
  have hle : (c.rest.dropWhile isBlank).length ≤ c.rest.length :=
    (List.dropWhile_sublist isBlank).length_le
  have hne : c.rest.dropWhile isBlank ≠ [] := by
    intro he
    simp [he, Token.lexemeOf] at h
  have h1 := List.length_pos_iff.2 hne
  have h2 := List.length_pos_iff.2 h
  rw [List.length_drop]
  omega

end Cursor

/-! ## Streams -/

/-- The tokens that lie ahead, and the one that ends the text. -/
structure TokenStream where
  ahead : List Token
  finish : Token
deriving DecidableEq

namespace TokenStream

/-- The next token. -/
def peek (s : TokenStream) : Token := s.ahead.headD s.finish

/-- The stream without its first `n` tokens; the end of the text stays. -/
def drop (s : TokenStream) (n : Nat) : TokenStream := { s with ahead := s.ahead.drop n }

/-- All tokens, the one that ends the text included. -/
def toList (s : TokenStream) : List Token := s.ahead ++ [s.finish]

end TokenStream

/-- The tokens from a cursor to the end of its text. -/
def Cursor.stream (c : Cursor) : TokenStream :=
  if c.next.1.kind = .finish then
    { ahead := [], finish := c.next.1 }
  else
    let s := c.next.2.stream
    { s with ahead := c.next.1 :: s.ahead }
termination_by c.rest.length
decreasing_by exact length_rest_next_lt ‹_›

/-- The tokens of a book. -/
def TokenStream.ofText (book : Text) : TokenStream := (Cursor.start book).stream

/-- The tokens of a book as a list that ends with `finish`. -/
def Token.scan (book : Text) : List Token := (TokenStream.ofText book).toList

/-- The first sentence of a text: its tokens before the first period. -/
def Token.sentence (book : Text) : List Token :=
  (TokenStream.ofText book).ahead.takeWhile (·.kind ≠ .period)

/-! ## Readers -/

/-- A cursor together with the place where its last token was asked for. -/
structure Reader where
  cursor : Cursor
  mark : Cursor
deriving DecidableEq

namespace Reader

/-- A reader at the start of a book. -/
def ofText (book : Text) : Reader := { cursor := Cursor.start book, mark := Cursor.start book }

/-- Takes the next token and marks the place before it. -/
def next (r : Reader) : Token × Reader :=
  (r.cursor.next.1, { cursor := r.cursor.next.2, mark := r.cursor })

/-- Takes the next token, then puts everything back: what is unread, the line and the
column of it, and the mark with its place. -/
def look (r : Reader) : Token × Reader :=
  let rest := r.cursor.rest
  let line := r.cursor.location.line
  let col := r.cursor.location.col
  let markRest := r.mark.rest
  let markLocation := r.mark.location
  let (t, r') := r.next
  (t, { r' with
    cursor := { r'.cursor with rest, location := { line, col } }
    mark := { r'.mark with rest := markRest, location := markLocation } })

/-- Shows the next token. -/
def peek (r : Reader) : Token := r.look.1

/-- Returns to the mark. -/
def back (r : Reader) : Reader := { r with cursor := r.mark }

/-- Looking at the next token leaves the reader where it is. -/
theorem look_eq (r : Reader) : r.look = (r.next.1, r) := rfl

end Reader

end Cookbook
