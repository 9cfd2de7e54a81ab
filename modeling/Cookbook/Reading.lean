import Cookbook.ParseError
import Cookbook.Token.Cursor

/-!
# Cookbook.Reading

Steps that read a stream of tokens.  A step takes tokens off the stream and gives
a result, or refuses the text.  How a text is refused is a parameter: a `ReadingT`
step reads in any way that is `Refusing`, a `Reading` step in the one that says
nothing.  No reading puts tokens back or takes them from anywhere but the front
(`Shrinks`), which is why reading recipe after recipe comes to an end.
-/

namespace Cookbook

/-- A step that reads some tokens, in a way that can refuse the text. -/
def ReadingT (m : Type → Type) (α : Type) := TokenStream → m (α × TokenStream)

/-- A step that reads some tokens and refuses the text without a word. -/
abbrev Reading := ReadingT (Except ParseError)

instance [Refusing m] : Monad (ReadingT m) where
  pure a := fun s => pure (a, s)
  bind r f := fun s => r s >>= fun x => f x.1 x.2

namespace Reading

variable {m : Type → Type} [Refusing m] {α β : Type}

/-- Shows the next token. -/
def peek : ReadingT m Token := fun s => pure (s.peek, s)

/-- Takes the next token. -/
def next : ReadingT m Token := fun s => pure (s.peek, s.drop 1)

/-- Refuses the text at a token. -/
def refuse (t : Token) (cause : ParseError.Cause) : ReadingT m α := fun _ => Refusing.refuse t cause

/-- Takes the longest run of tokens that satisfy a condition. -/
def takeWhile (p : Token → Bool) : ReadingT m (List Token) := fun s =>
  pure (s.ahead.takeWhile p, { s with ahead := s.ahead.dropWhile p })

/-- Reads from the list of the tokens ahead, given the token that ends the
text. -/
def ofTokens (f : Token → List Token → m (α × List Token)) : ReadingT m α := fun s => do
  let (a, rest) ← f s.finish s.ahead
  return (a, { s with ahead := rest })

/-- Takes the tokens up to the next break. -/
def line : ReadingT m (List Token) := takeWhile fun t => !t.isBreak

/-- Whether the stream begins with a heading, such as `Method.` -/
def atHeading (kind : Token.Kind) : ReadingT m Bool := fun s =>
  pure (s.peek.kind = kind && (s.drop 1).peek.kind = .period, s)

/-- Whether the stream begins with two given words. -/
def atWords (first second : Text) : ReadingT m Bool := fun s =>
  let a := s.peek
  let b := (s.drop 1).peek
  pure (a.isWord && a.lexeme = first && b.isWord && b.lexeme = second, s)

/-- Reads a part if it is there. -/
def whenHere (here : ReadingT m Bool) (absent : α) (part : ReadingT m α) : ReadingT m α := do
  if ← here then part else return absent

/-! ## Equations -/

section

variable (s : TokenStream)

theorem bind_def (r : Reading α) (f : α → Reading β) :
    (r >>= f) s =
      match r s with
      | .ok (a, s') => f a s'
      | .error e => .error e := by
  show Except.bind (r s) (fun x => f x.1 x.2) = _
  rcases r s with _ | ⟨_, _⟩ <;> rfl

theorem pure_def (a : α) : (pure a : Reading α) s = .ok (a, s) := rfl

theorem peek_def : peek s = .ok (s.peek, s) := rfl

theorem next_def : next s = .ok (s.peek, s.drop 1) := rfl

theorem refuse_def (t : Token) (cause : ParseError.Cause) :
    (refuse t cause : Reading α) s = .error (t.error cause) := rfl

theorem takeWhile_def (p : Token → Bool) :
    takeWhile p s = .ok (s.ahead.takeWhile p, { s with ahead := s.ahead.dropWhile p }) := rfl

theorem ofTokens_def (f : Token → List Token → Except ParseError (α × List Token)) :
    ofTokens f s =
      match f s.finish s.ahead with
      | .ok (a, rest) => .ok (a, { s with ahead := rest })
      | .error e => .error e := by
  show Except.bind (f s.finish s.ahead) _ = _
  rcases f s.finish s.ahead with _ | ⟨_, _⟩ <;> rfl

theorem atHeading_def (kind : Token.Kind) :
    atHeading kind s = .ok (s.peek.kind = kind && (s.drop 1).peek.kind = .period, s) := rfl

theorem atWords_def (first second : Text) :
    atWords first second s =
      .ok (s.peek.isWord && s.peek.lexeme = first && (s.drop 1).peek.isWord &&
        (s.drop 1).peek.lexeme = second, s) := rfl

end

/-- Two steps succeed when the first does and the second succeeds behind it. -/
theorem bind_eq_ok_iff {r : Reading α} {f : α → Reading β} {s s' : TokenStream} {b : β} :
    (r >>= f) s = .ok (b, s') ↔ ∃ a s₁, r s = .ok (a, s₁) ∧ f a s₁ = .ok (b, s') := by
  rw [bind_def]
  match r s with
  | .ok (a, s₁) =>
    constructor
    · exact fun h => ⟨a, s₁, rfl, h⟩
    · rintro ⟨_, _, ⟨⟩, h⟩
      exact h
  | .error e => simp

instance : LawfulMonad Reading := by
  refine LawfulMonad.mk' Reading (fun r => ?_) (fun a f => rfl) fun r f g => ?_
  · funext s
    change (r >>= pure) s = r s
    rw [bind_def]
    rcases r s with _ | ⟨_, _⟩ <;> rfl
  · funext s
    simp only [bind_def]
    rcases r s with _ | ⟨_, _⟩ <;> rfl

/-! ## No tokens are put back -/

/-- A reading that only takes tokens off the front. -/
def Shrinks (r : Reading α) : Prop := ∀ s a s', r s = .ok (a, s') → s'.ahead <:+ s.ahead

theorem shrinks_bind {r : Reading α} {f : α → Reading β} (hr : Shrinks r)
    (hf : ∀ a, Shrinks (f a)) : Shrinks (r >>= f) := by
  intro s b s' h
  obtain ⟨a, s₁, h₁, h₂⟩ := bind_eq_ok_iff.1 h
  exact (hf a _ _ _ h₂).trans (hr _ _ _ h₁)

theorem shrinks_pure (a : α) : Shrinks (pure a : Reading α) := by
  intro s b s' h
  simp only [pure_def, Except.ok.injEq, Prod.mk.injEq] at h
  simp [h.2]

theorem shrinks_peek : Shrinks peek := by
  intro s b s' h
  simp only [peek_def, Except.ok.injEq, Prod.mk.injEq] at h
  simp [h.2]

theorem shrinks_next : Shrinks next := by
  intro s b s' h
  simp only [next_def, Except.ok.injEq, Prod.mk.injEq] at h
  rw [← h.2]
  exact List.drop_suffix 1 s.ahead

theorem shrinks_refuse (t : Token) (cause : ParseError.Cause) :
    Shrinks (refuse t cause : Reading α) := by
  intro s b s' h
  simp [refuse_def] at h

theorem shrinks_takeWhile (p : Token → Bool) : Shrinks (takeWhile p) := by
  intro s b s' h
  simp only [takeWhile_def, Except.ok.injEq, Prod.mk.injEq] at h
  rw [← h.2]
  exact List.dropWhile_suffix p

theorem shrinks_ofTokens {f : Token → List Token → Except ParseError (α × List Token)}
    (hf : ∀ finish tokens a rest, f finish tokens = .ok (a, rest) → rest <:+ tokens) :
    Shrinks (ofTokens f) := by
  intro s b s' h
  simp only [ofTokens_def] at h
  split at h
  · next hs =>
    simp only [Except.ok.injEq, Prod.mk.injEq] at h
    simpa [← h.2] using hf _ _ _ _ hs
  · simp at h

theorem shrinks_line : Shrinks line := shrinks_takeWhile _

theorem shrinks_atHeading (kind : Token.Kind) : Shrinks (atHeading kind) := by
  intro s b s' h
  simp only [atHeading_def, Except.ok.injEq, Prod.mk.injEq] at h
  simp [h.2]

theorem shrinks_atWords (first second : Text) : Shrinks (atWords first second) := by
  intro s b s' h
  simp only [atWords_def, Except.ok.injEq, Prod.mk.injEq] at h
  simp [h.2]

theorem shrinks_whenHere {here : Reading Bool} {part : Reading α} (absent : α)
    (hh : Shrinks here) (hp : Shrinks part) : Shrinks (whenHere here absent part) := by
  refine shrinks_bind hh fun b => ?_
  cases b
  · exact shrinks_pure absent
  · exact hp

end Reading

end Cookbook
