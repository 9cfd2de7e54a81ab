import Cookbook.Token.Cursor

/-!
# Cookbook.Phrase.Pattern

Patterns of sentences.  An element of a pattern takes some tokens off the front
of a sentence, often in more than one way: `Element.readings` lists the ways,
the preferred one first.  A sentence fits a pattern if it can be cut into one
reading per element; `matchFrom` tries the readings of earlier elements before
those of later ones.  There is one record of what was picked out, and a reading
that leads nowhere is not taken back from it but written over.
-/

namespace Cookbook

/-! ## Numbered vessels -/

/-- A number as that of a vessel; vessels count from 1. -/
def vesselNumber? (n : Int) : Option UInt32 :=
  if 1 ≤ n ∧ n < UInt32.size then some (UInt32.ofNat n.toNat) else none

/-- The number of an ordinal such as `3rd`; any of the four endings will do. -/
def ordinal? (word : Text) : Option UInt32 :=
  let digits := word.take (word.length - 2)
  let ending := word.drop (word.length - 2)
  if ending = "st" ∨ ending = "nd" ∨ ending = "rd" ∨ ending = "th" then
    (Decimal.nat? digits).bind fun n => vesselNumber? n
  else none

/-- The number of a token, if a vessel can have it. -/
def Token.vesselNumber? (t : Token) : Option UInt32 :=
  match t.kind with
  | .number n => Cookbook.vesselNumber? n.toInt
  | _ => none

/-- Bowls and dishes. -/
inductive Vessel where
  | bowl
  | dish
deriving DecidableEq

/-- The two words that name a vessel. -/
def Vessel.words : Vessel → Text × Text
  | bowl => ("mixing", "bowl")
  | dish => ("baking", "dish")

namespace Vessel

/-- A sentence with its leading `the` taken off, then as it is. -/
def afterThe : List Token → List (List Token)
  | t :: rest => if t.lexeme = "the" then [rest, t :: rest] else [t :: rest]
  | [] => [[]]

/-- A sentence with its leading ordinal taken off, then as it is. -/
def afterOrdinal : List Token → List (Option UInt32 × List Token)
  | t :: rest =>
    match ordinal? t.lexeme with
    | some n => [(some n, rest), (none, t :: rest)]
    | none => [(none, t :: rest)]
  | [] => [(none, [])]

/-- What follows the words of a vessel: a number if no ordinal came before, or
nothing.  A vessel without a number is the first. -/
def afterWords (ordinal : Option UInt32) (rest : List Token) : List (UInt32 × List Token) :=
  let unnumbered := [(ordinal.getD 1, rest)]
  match ordinal, rest with
  | none, t :: rest' =>
    match t.vesselNumber? with
    | some n => (n, rest') :: unnumbered
    | none => unnumbered
  | _, _ => unnumbered

/-- The ways to take a vessel off a sentence, such as `the 2nd mixing bowl` or
`mixing bowl 2`. -/
def readings (v : Vessel) (sentence : List Token) : List (UInt32 × List Token) :=
  (afterThe sentence).flatMap fun s =>
    (afterOrdinal s).flatMap fun (ordinal, s') =>
      match s' with
      | a :: b :: rest =>
        if a.lexeme = v.words.1 ∧ b.lexeme = v.words.2 then afterWords ordinal rest else []
      | _ => []

end Vessel

/-! ## Elements -/

/-- A piece of a pattern. -/
inductive Element where
  /-- This word. -/
  | word (w : Text)
  /-- This word or nothing. -/
  | optional (w : Text)
  /-- One or more tokens that name an ingredient. -/
  | ingredient
  /-- One or more tokens that name a recipe. -/
  | recipe
  /-- A word that opens a loop. -/
  | verb
  /-- A word that closes a loop. -/
  | verbed
  | number
  | vessel (v : Vessel)
deriving DecidableEq

instance : Coe String Element := ⟨fun s => .word s⟩

/-- What an element took off a sentence. -/
inductive Capture where
  | nothing
  | ingredient (words : List Token)
  | recipe (words : List Token)
  | verb (word : Text)
  | verbed (word : Text)
  | number (n : Int64)
  | vessel (v : Vessel) (n : UInt32)
deriving DecidableEq

/-- The ways to cut a list behind a non-empty front part, shortest front first. -/
def cuts : List α → List (List α × List α)
  | [] => []
  | x :: xs => ([x], xs) :: (cuts xs).map fun (front, rest) => (x :: front, rest)

/-- A cut loses nothing and has a front. -/
theorem append_of_mem_cuts {l front rest : List α} (h : (front, rest) ∈ cuts l) :
    front ≠ [] ∧ front ++ rest = l := by
  induction l generalizing front with
  | nil => simp [cuts] at h
  | cons x xs ih =>
    simp only [cuts, List.mem_cons, Prod.mk.injEq, List.mem_map, Prod.exists] at h
    rcases h with ⟨rfl, rfl⟩ | ⟨front', rest', hmem, rfl, rfl⟩
    · simp
    · simp [(ih hmem).2]

namespace Element

/-- The one way to take a token with the given lexeme. -/
def literal (w : Text) : List Token → List (Capture × List Token)
  | t :: rest => if t.lexeme = w then [(.nothing, rest)] else []
  | [] => []

/-- The one way to take a word. -/
def oneWord (capture : Text → Capture) : List Token → List (Capture × List Token)
  | t :: rest => if t.isWord then [(capture t.lexeme, rest)] else []
  | [] => []

/-- The one way to take a number. -/
def oneNumber : List Token → List (Capture × List Token)
  | t :: rest =>
    match t.kind with
    | .number n => [(.number n, rest)]
    | _ => []
  | [] => []

/-- The ways to take an element off a sentence, with what is left, the
preferred one first: fewer words before more, and an optional word taken before
it is left out. -/
def readings (e : Element) (sentence : List Token) : List (Capture × List Token) :=
  match e with
  | word w => literal w sentence
  | optional w => literal w sentence ++ [(.nothing, sentence)]
  | ingredient => (cuts sentence).map fun (words, rest) => (.ingredient words, rest)
  | recipe => (cuts sentence).map fun (words, rest) => (.recipe words, rest)
  | verb => oneWord .verb sentence
  | verbed => oneWord .verbed sentence
  | number => oneNumber sentence
  | vessel v => (v.readings sentence).map fun (n, rest) => (.vessel v n, rest)

/-- An element by its spelling: a placeholder in angle brackets, an optional
word with a question mark, or a word. -/
def ofText (t : Text) : Element :=
  if t = "<ing>" then ingredient
  else if t = "<recipe>" then recipe
  else if t = "<bowl>" then vessel .bowl
  else if t = "<dish>" then vessel .dish
  else if t = "<verb>" then verb
  else if t = "<verbed>" then verbed
  else if t = "<n>" then number
  else if t.getLast? = some 63 then optional t.dropLast
  else word t

end Element

/-! ## Captures -/

/-- What a pattern picked out of a sentence, by placeholder. -/
structure Captures where
  ingredient : Text := []
  recipe : Text := []
  verb : Text := []
  verbed : Text := []
  number : Option Int64 := none
  bowl : Option UInt32 := none
  dish : Option UInt32 := none
deriving DecidableEq

namespace Captures

/-- Notes down what one element took, in place of what an earlier element for
the same placeholder took. -/
def record (c : Captures) : Capture → Captures
  | .nothing => c
  | .ingredient words => { c with ingredient := Token.join words }
  | .recipe words => { c with recipe := Token.join words }
  | .verb word => { c with verb := word }
  | .verbed word => { c with verbed := word }
  | .number n => { c with number := some n }
  | .vessel .bowl n => { c with bowl := some n }
  | .vessel .dish n => { c with dish := some n }

/-- Rubs out what stands for an element that words were tried for in vain.  What
was noted for a single word or a number stays where it is. -/
def rubOut (c : Captures) : Element → Captures
  | .ingredient => { c with ingredient := [] }
  | .recipe => { c with recipe := [] }
  | .vessel .bowl => { c with bowl := none }
  | .vessel .dish => { c with dish := none }
  | .word _ | .optional _ | .verb | .verbed | .number => c

end Captures

/-! ## Patterns -/

/-- A sequence of elements. -/
abbrev Pattern := List Element

namespace Pattern

/-- The pieces of a text between its spaces.  Two spaces in a row hold an empty
piece; a space at the end holds none. -/
def pieces : Text → List Text
  | [] => []
  | b :: rest =>
    if b = Text.space then [] :: pieces rest
    else
      match pieces rest with
      | [] => [[b]]
      | piece :: others => (b :: piece) :: others

/-- A pattern by its spelling, such as `Put <ing> into <bowl>`. -/
def ofText (t : Text) : Pattern := (pieces t).map Element.ofText

/-- Tries the readings of an element in turn.  What each of them takes is noted
down before the rest of the sentence is tried, and whatever was noted on the way
stays when the next reading is tried. -/
def tryEach (matchRest : List Token → Captures → Bool × Captures) (e : Element) :
    List (Capture × List Token) → Captures → Bool × Captures
  | [], c => (false, c.rubOut e)
  | (capture, rest) :: others, c =>
    match matchRest rest (c.record capture) with
    | (true, c') => (true, c')
    | (false, c') => tryEach matchRest e others c'

/-- Whether the whole sentence can be cut among the elements, and the notes when
that is known. -/
def matchFrom : Pattern → List Token → Captures → Bool × Captures
  | [], sentence, c => (sentence.isEmpty, c)
  | e :: es, sentence, c => tryEach (matchFrom es) e (e.readings sentence) c

/-- What a pattern picks out of a sentence, if the sentence fits it. -/
def match? (p : Pattern) (sentence : List Token) : Option Captures :=
  match p.matchFrom sentence {} with
  | (true, c) => some c
  | (false, _) => none

end Pattern

end Cookbook
