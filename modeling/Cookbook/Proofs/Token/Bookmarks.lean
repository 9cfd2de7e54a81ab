import Cookbook.Token.Cursor

/-!
# Cookbook.Proofs.Token.Bookmarks

A reader is two bookmarks in the list of the tokens of its text, however it is
asked for them (`answers_eq_bookmarks`).

A reader keeps its places as positions in the text, in front of the blanks that
lead to the next token, and a token that is asked for twice may be found behind
its blanks the second time: so it is at the end of a text.  What a place stands
for is therefore said by the tokens ahead of it, blanks left out
(`Cursor.StandsAt`).  Each request keeps this for both places
(`Reader.Follows.ask`), and so does any sequence of requests.
-/

namespace Cookbook

/-- A token without the blanks in front of it: its kind with its number, its
lexeme and its place. -/
def Token.unspaced (t : Token) : Token := { t with blanks := [] }

@[simp] theorem Token.kind_unspaced (t : Token) : t.unspaced.kind = t.kind := rfl

/-! ## Requests -/

/-- What a reader is asked for. -/
inductive Reader.Request where
  | next
  | peek
  | back
deriving DecidableEq

/-- The answer to a request, and the reader afterwards.  Going back gives no
token. -/
def Reader.ask (r : Reader) : Request → Option Token × Reader
  | .next => (some r.next.1, r.next.2)
  | .peek => (some r.look.1, r.look.2)
  | .back => (none, r.back)

/-- The answers to some requests, one after the other. -/
def Reader.answers (r : Reader) : List Request → List (Option Token)
  | [] => []
  | q :: qs => (r.ask q).1 :: (r.ask q).2.answers qs

/-- Two places in a list of tokens: the one that is read next, and the one to go
back to. -/
structure Bookmarks where
  tokens : List Token
  place : Nat := 0
  mark : Nat := 0

namespace Bookmarks

/-- Both bookmarks at the first token of a text. -/
def ofText (book : Text) : Bookmarks := { tokens := Token.scan book }

/-- The token at the place. -/
def here? (b : Bookmarks) : Option Token := b.tokens[b.place]?

/-- The place behind the token that is read next.  There is none behind the end
of a text. -/
def following (b : Bookmarks) : Nat :=
  if b.here?.map (·.kind) = some .finish then b.place else b.place + 1

/-- The answer to a request, and the bookmarks afterwards. -/
def ask (b : Bookmarks) : Reader.Request → Option Token × Bookmarks
  | .next => (b.here?, { b with place := b.following, mark := b.place })
  | .peek => (b.here?, b)
  | .back => (none, { b with place := b.mark })

/-- The answers to some requests, one after the other. -/
def answers (b : Bookmarks) : List Reader.Request → List (Option Token)
  | [] => []
  | q :: qs => (b.ask q).1 :: (b.ask q).2.answers qs

end Bookmarks

/-! ## Places -/

namespace Cursor

variable {c : Cursor} {ts : List Token} {n : Nat}

theorem toList_stream_of_finish (h : c.next.1.kind = .finish) : c.stream.toList = [c.next.1] := by
  rw [stream, if_pos h]
  rfl

theorem toList_stream_of_ne_finish (h : c.next.1.kind ≠ .finish) :
    c.stream.toList = c.next.1 :: c.next.2.stream.toList := by
  rw [stream, if_neg h]
  rfl

/-- The token that is read next is the first of those ahead. -/
theorem head?_toList_stream (c : Cursor) : c.stream.toList.head? = some c.next.1 := by
  by_cases h : c.next.1.kind = .finish
  · rw [toList_stream_of_finish h, List.head?_cons]
  · rw [toList_stream_of_ne_finish h, List.head?_cons]

/-- The end of a text is read again, at the same place. -/
theorem next_next_of_finish (h : c.next.1.kind = .finish) :
    c.next.2.next.1 = c.next.1.unspaced := by
  have hlexeme : Token.lexemeOf (c.rest.dropWhile Text.isBlank) = [] :=
    (Token.Kind.ofLexeme_eq_finish_iff _).1 h
  have hrest : c.rest.dropWhile Text.isBlank = [] :=
    Decidable.of_not_not fun hne => Token.lexemeOf_ne_nil hne hlexeme
  simp [next, hrest, Token.unspaced, Token.lexemeOf]

/-- Whether the tokens ahead of a cursor are those of a list from a place on. -/
def StandsAt (c : Cursor) (ts : List Token) (n : Nat) : Prop :=
  c.stream.toList.map Token.unspaced = (ts.drop n).map Token.unspaced

/-- The next token is the one at the place. -/
theorem StandsAt.getElem? (h : c.StandsAt ts n) :
    ts[n]?.map Token.unspaced = some c.next.1.unspaced := by
  have hhead := congrArg List.head? h
  rw [List.head?_map, List.head?_map, head?_toList_stream, List.head?_drop] at hhead
  exact hhead.symm

/-- At the end of a text reading leaves the place as it is. -/
theorem StandsAt.next_of_finish (h : c.StandsAt ts n) (hfinish : c.next.1.kind = .finish) :
    c.next.2.StandsAt ts n := by
  have hagain := next_next_of_finish hfinish
  have hkind : c.next.2.next.1.kind = .finish := by rw [hagain, Token.kind_unspaced, hfinish]
  rw [StandsAt, toList_stream_of_finish hfinish] at h
  rw [StandsAt, toList_stream_of_finish hkind, ← h, hagain]
  rfl

/-- Anywhere else the place behind the token is the next one. -/
theorem StandsAt.next_of_ne_finish (h : c.StandsAt ts n) (hfinish : c.next.1.kind ≠ .finish) :
    c.next.2.StandsAt ts (n + 1) := by
  rw [StandsAt, toList_stream_of_ne_finish hfinish] at h
  have htail := congrArg List.tail h
  rwa [List.map_cons, List.tail_cons, ← List.map_tail, List.tail_drop] at htail

end Cursor

/-! ## Answers -/

namespace Reader

variable {r : Reader} {b : Bookmarks}

/-- Whether both places of a reader are those of two bookmarks. -/
structure Follows (r : Reader) (b : Bookmarks) : Prop where
  cursor : r.cursor.StandsAt b.tokens b.place
  mark : r.mark.StandsAt b.tokens b.mark

theorem Follows.here? (h : r.Follows b) :
    b.here?.map Token.unspaced = some r.cursor.next.1.unspaced :=
  h.cursor.getElem?

/-- Reading a token brings the reader to the place behind it. -/
theorem Follows.following (h : r.Follows b) : r.cursor.next.2.StandsAt b.tokens b.following := by
  have hkind : b.here?.map (·.kind) = some r.cursor.next.1.kind := by
    have hhere := congrArg (Option.map Token.kind) h.here?
    rwa [Option.map_map] at hhere
  rw [Bookmarks.following, hkind]
  by_cases hfinish : r.cursor.next.1.kind = .finish
  · rw [if_pos (by rw [hfinish])]
    exact h.cursor.next_of_finish hfinish
  · rw [if_neg (by simpa using hfinish)]
    exact h.cursor.next_of_ne_finish hfinish

/-- A request is answered alike, and leaves the places alike. -/
theorem Follows.ask (h : r.Follows b) (q : Request) :
    (r.ask q).1.map Token.unspaced = (b.ask q).1.map Token.unspaced ∧
      (r.ask q).2.Follows (b.ask q).2 := by
  cases q with
  | next => exact ⟨h.here?.symm, h.following, h.cursor⟩
  | peek =>
    rw [Reader.ask, look_eq]
    exact ⟨h.here?.symm, h⟩
  | back => exact ⟨rfl, h.mark, h.mark⟩

theorem Follows.answers (h : r.Follows b) (qs : List Request) :
    (r.answers qs).map (Option.map Token.unspaced) =
      (b.answers qs).map (Option.map Token.unspaced) := by
  induction qs generalizing r b with
  | nil => rfl
  | cons q qs ih =>
    obtain ⟨hanswer, hfollows⟩ := h.ask q
    rw [Reader.answers, Bookmarks.answers, List.map_cons, List.map_cons, hanswer, ih hfollows]

theorem follows_ofText (book : Text) : (ofText book).Follows (.ofText book) := ⟨rfl, rfl⟩

end Reader

/-- Whatever a reader is asked for, in whatever order, it answers with the tokens
that two bookmarks in the list of all tokens of its text come to. -/
theorem answers_eq_bookmarks (book : Text) (qs : List Reader.Request) :
    ((Reader.ofText book).answers qs).map (Option.map Token.unspaced) =
      ((Bookmarks.ofText book).answers qs).map (Option.map Token.unspaced) :=
  (Reader.follows_ofText book).answers qs

/-- The end behind blanks is read twice, gone back from and read again. -/
example :
    ((Reader.ofText " a \n ").answers [.next, .back, .next, .next, .next, .next, .back, .peek]).map
        (Option.map fun t => (t.kind, t.location.line, t.location.col)) =
      [some (.word, 1, 1), none, some (.word, 1, 1), some (.lineBreak, 1, 3),
        some (.finish, 2, 1), some (.finish, 2, 1), none, some (.finish, 2, 1)] := by
  decide +kernel

end Cookbook
