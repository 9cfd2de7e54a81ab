import Cookbook.Draft.Grammar

/-!
# Cookbook.Draft.Book

Reading a recipe book: recipes with blank lines between them.  Every recipe
takes at least its title off the tokens (`length_recipe_lt`), so a book has an
end: the guard that reading goes on under, in whatever way a text is refused, holds
of every recipe (`moreRecipes_of_blankLine`).
-/

namespace Cookbook

namespace Grammar

open Reading

/-! ## No part puts tokens back -/

theorem shrinks_newLineAfter (part : ParseError.Part) : Shrinks (newLineAfter part) := by
  refine shrinks_bind shrinks_next fun t => ?_
  split
  · exact shrinks_pure _
  · exact shrinks_refuse _ _

theorem shrinks_blankLineAfter (part : ParseError.Part) : Shrinks (blankLineAfter part) := by
  refine shrinks_bind shrinks_next fun t => ?_
  split
  · exact shrinks_pure _
  · exact shrinks_refuse _ _

theorem shrinks_heading (part : ParseError.Part) : Shrinks (heading part) := by
  refine shrinks_bind shrinks_next fun _ => shrinks_bind shrinks_next fun _ =>
    shrinks_bind shrinks_next fun t => ?_
  split
  · exact shrinks_pure _
  · exact shrinks_refuse _ _

theorem shrinks_atPart : Shrinks atPart :=
  shrinks_bind (shrinks_atHeading _) fun _ => shrinks_bind (shrinks_atHeading _) fun _ =>
    shrinks_bind (shrinks_atWords _ _) fun _ => shrinks_bind (shrinks_atWords _ _) fun _ =>
      shrinks_pure _

theorem shrinks_optionalComment : Shrinks optionalComment := by
  refine shrinks_bind shrinks_atPart fun b => ?_
  cases b
  · exact shrinks_bind (shrinks_takeWhile _) fun _ =>
      shrinks_bind (shrinks_blankLineAfter _) fun _ => shrinks_pure _
  · exact shrinks_pure _

theorem ingredientLines_suffix {finish : Token} {tokens line rest : List Token}
    {is : List Ingredient} (h : ingredientLines finish tokens line = .ok (is, rest)) :
    rest <:+ tokens := by
  induction tokens generalizing line is with
  | nil =>
    rw [ingredientLines, Refusing.bind_eq_ok_iff] at h
    obtain ⟨i, -, h⟩ := h
    cases h
    exact List.suffix_rfl
  | cons t tokens ih =>
    rw [ingredientLines] at h
    split at h
    · obtain ⟨i, -, h⟩ := Refusing.bind_eq_ok_iff.1 h
      split at h
      · obtain ⟨more, hmore, h⟩ := Refusing.bind_eq_ok_iff.1 h
        cases h
        exact (ih hmore).trans (List.suffix_cons t tokens)
      · cases h
        exact List.suffix_rfl
    · exact (ih h).trans (List.suffix_cons t tokens)

theorem shrinks_ingredients : Shrinks ingredients :=
  shrinks_bind (shrinks_heading _) fun _ =>
    shrinks_bind (shrinks_ofTokens fun _ _ _ _ => ingredientLines_suffix) fun _ =>
      shrinks_bind (shrinks_blankLineAfter _) fun _ => shrinks_pure _

theorem shrinks_cookingTime : Shrinks cookingTime := by
  refine shrinks_bind shrinks_peek fun _ => shrinks_bind shrinks_line fun _ => ?_
  split
  · exact shrinks_refuse _ _
  · exact shrinks_bind (shrinks_newLineAfter _) fun _ => shrinks_pure _

theorem shrinks_oven : Shrinks oven := by
  refine shrinks_bind shrinks_peek fun _ => shrinks_bind shrinks_line fun _ => ?_
  split
  · exact shrinks_bind (shrinks_newLineAfter _) fun _ => shrinks_pure _
  · split
    · exact shrinks_refuse _ _
    · exact shrinks_bind (shrinks_newLineAfter _) fun _ => shrinks_pure _
  · exact shrinks_refuse _ _

theorem statements_suffix {tokens sentence rest : List Token} {is : List Instruction}
    (h : statements tokens sentence = .ok (is, rest)) : rest <:+ tokens := by
  induction tokens generalizing sentence is with
  | nil =>
    rw [statements.eq_def] at h
    simp only at h
    split at h
    · cases h
    · cases h
      exact List.suffix_rfl
  | cons t tokens ih =>
    have hcons := List.suffix_cons t tokens
    rw [statements.eq_def] at h
    simp only at h
    split at h
    · exact (ih h).trans hcons
    · split at h
      · cases h
      · cases h
        exact List.suffix_rfl
    · split at h
      · cases h
      · cases h
        exact List.suffix_rfl
    · cases h
    · split at h
      · cases h
      · obtain ⟨read, -, h⟩ := Refusing.bind_eq_ok_iff.1 h
        cases read with
        | none => cases h
        | some i =>
          obtain ⟨more, hmore, h⟩ := Refusing.bind_eq_ok_iff.1 h
          cases h
          exact (ih hmore).trans hcons
    · split at h
      · cases h
        exact List.suffix_rfl
      · exact (ih h).trans hcons
    · exact (ih h).trans hcons

theorem shrinks_method : Shrinks method := by
  refine shrinks_bind (shrinks_atHeading _) fun b => ?_
  cases b
  · exact shrinks_bind shrinks_peek fun _ => shrinks_refuse _ _
  · refine shrinks_bind (shrinks_heading _) fun _ =>
      shrinks_bind (shrinks_ofTokens fun _ _ _ _ => statements_suffix) fun _ => ?_
    split
    · exact shrinks_bind shrinks_peek fun _ => shrinks_refuse _ _
    · exact shrinks_pure _

theorem shrinks_toServes : Shrinks toServes := by
  intro s a s' h
  simp only [toServes] at h
  split at h
  · cases h
    exact List.drop_suffix 1 s.ahead
  · cases h
    exact List.suffix_rfl

theorem shrinks_serves : Shrinks serves := by
  refine shrinks_bind shrinks_toServes fun _ => shrinks_bind shrinks_peek fun _ => ?_
  split
  · refine shrinks_bind shrinks_next fun _ => shrinks_bind shrinks_next fun _ => ?_
    split
    · split
      · exact shrinks_refuse _ _
      · refine shrinks_bind shrinks_next fun _ => ?_
        split
        · refine shrinks_bind shrinks_peek fun _ => ?_
          split
          · exact shrinks_pure _
          · exact shrinks_refuse _ _
        · exact shrinks_refuse _ _
    · exact shrinks_refuse _ _
  · exact shrinks_pure _

theorem shrinks_body (title : Text) (location : Location) : Shrinks (body title location) :=
  shrinks_bind (shrinks_newLineAfter _) fun _ => shrinks_bind shrinks_optionalComment fun _ =>
    shrinks_bind (shrinks_whenHere _ (shrinks_atHeading _) shrinks_ingredients) fun _ =>
      shrinks_bind (shrinks_whenHere _ (shrinks_atWords _ _) shrinks_cookingTime) fun _ =>
        shrinks_bind (shrinks_whenHere _ (shrinks_atWords _ _) shrinks_oven) fun _ =>
          shrinks_bind shrinks_method fun _ => shrinks_bind shrinks_serves fun _ =>
            shrinks_pure _

/-- A title takes at least its period. -/
theorem length_title_lt {s s' : TokenStream} {r : Text × Location}
    (h : title s = .ok (r, s')) : s'.ahead.length < s.ahead.length := by
  obtain ⟨_, _, ⟨⟩, h⟩ := bind_eq_ok_iff.1 h
  obtain ⟨tokens, s₁, h₁, h₂⟩ := bind_eq_ok_iff.1 h
  simp only [line, takeWhile_def, Except.ok.injEq, Prod.mk.injEq] at h₁
  have hlen : tokens.length + s₁.ahead.length = s.ahead.length := by
    rw [← h₁.1, ← h₁.2, ← List.length_append, List.takeWhile_append_dropWhile]
  cases ht : tokens.getLast? with
  | none =>
    simp only [ht] at h₂
    obtain ⟨_, _, _, h₃⟩ := bind_eq_ok_iff.1 h₂
    simp [refuse_def] at h₃
  | some last =>
    have hpos : 0 < tokens.length := by
      cases tokens with
      | nil => simp at ht
      | cons _ _ => simp
    simp only [ht] at h₂
    split at h₂
    · simp [refuse_def] at h₂
    · cases hf : tokens.dropLast.find? Token.isStray with
      | some t => simp [hf, refuse_def] at h₂
      | none =>
        simp only [hf, pure_def, Except.ok.injEq, Prod.mk.injEq] at h₂
        rw [← h₂.2]
        omega

/-- A recipe takes at least its title. -/
theorem length_recipe_lt {s s' : TokenStream} {d : Draft} (h : recipe s = .ok (d, s')) :
    s'.ahead.length < s.ahead.length := by
  obtain ⟨r, s₁, h₁, h₂⟩ := bind_eq_ok_iff.1 h
  exact Nat.lt_of_le_of_lt (shrinks_body _ _ _ _ _ h₂).length_le (length_title_lt h₁)

/-! ## Books -/

section

variable {m : Type → Type} [Refusing m]

/-- The recipes that follow another one; a blank line has to stand before each
of them. -/
def moreRecipes (s : TokenStream) : m (List Draft) :=
  let gap := s.ahead.takeWhile Token.isLineEnd
  let s₁ := { s with ahead := s.ahead.dropWhile Token.isLineEnd }
  match s₁.ahead with
  | [] => return []
  | t :: _ =>
    if gap.any (·.kind = .blankLine) then do
      let (d, s₂) ← recipe s₁
      -- no recipe is empty, but of `m` nothing is known that says so
      if _h : s₂.ahead.length < s.ahead.length then
        let ds ← moreRecipes s₂
        return d :: ds
      else return [d]
    else Refusing.refuse t (.noBlankLineBeforeRecipe t.kind)
termination_by s.ahead.length

/-- A recipe and those that follow it. -/
def recipes (s : TokenStream) : m (List Draft) := do
  let (d, s₁) ← recipe s
  let ds ← moreRecipes s₁
  return d :: ds

/-- All recipes of a book, which holds at least one. -/
def book (s : TokenStream) : m (List Draft) :=
  let s₁ := { s with ahead := s.ahead.dropWhile Token.isLineEnd }
  if s₁.ahead.isEmpty then Refusing.refuse s.finish .noRecipe else recipes s₁

variable {s : TokenStream} {t : Token} {rest : List Token}

/-- Behind the last recipe nothing is left but ends of lines. -/
theorem moreRecipes_of_isLineEnd (hahead : s.ahead.dropWhile Token.isLineEnd = []) :
    (moreRecipes s : m (List Draft)) = pure [] := by
  rw [moreRecipes]
  dsimp only
  rw [hahead]

theorem moreRecipes_of_lineBreak (hahead : s.ahead.dropWhile Token.isLineEnd = t :: rest)
    (hblank : ¬ (s.ahead.takeWhile Token.isLineEnd).any (·.kind = .blankLine)) :
    (moreRecipes s : m (List Draft)) = Refusing.refuse t (.noBlankLineBeforeRecipe t.kind) := by
  rw [moreRecipes]
  dsimp only
  rw [hahead]
  dsimp only
  rw [if_neg hblank]

end

section

variable {s s₁ : TokenStream} {t : Token} {rest : List Token} {d : Draft} {ds : List Draft}
  {e : ParseError}

/-- Behind a blank line, reading recipes starts again. -/
theorem moreRecipes_of_blankLine (hahead : s.ahead.dropWhile Token.isLineEnd = t :: rest)
    (hblank : (s.ahead.takeWhile Token.isLineEnd).any (·.kind = .blankLine)) :
    moreRecipes s = recipes { s with ahead := s.ahead.dropWhile Token.isLineEnd } := by
  rw [moreRecipes, recipes]
  dsimp only
  rw [hahead]
  dsimp only
  rw [if_pos hblank, ← hahead]
  cases hd : recipe { s with ahead := s.ahead.dropWhile Token.isLineEnd } with
  | error e => rfl
  | ok r =>
    have hle := (List.dropWhile_suffix Token.isLineEnd (l := s.ahead)).length_le
    exact dif_pos (Nat.lt_of_lt_of_le (length_recipe_lt hd) hle)

theorem recipes_eq_ok_iff :
    recipes s = .ok ds ↔
      ∃ d s₁ ds', recipe s = .ok (d, s₁) ∧ moreRecipes s₁ = .ok ds' ∧ d :: ds' = ds := by
  simp [recipes, Refusing.bind_eq_ok_iff]

theorem recipes_eq_error_iff :
    recipes s = .error e ↔
      recipe s = .error e ∨ ∃ d s₁, recipe s = .ok (d, s₁) ∧ moreRecipes s₁ = .error e := by
  simp [recipes, Refusing.bind_eq_error_iff]

/-- Induction along the recipes that are read one behind the other. -/
theorem moreRecipes_induction {motive : TokenStream → Prop}
    (last : ∀ s, s.ahead.dropWhile Token.isLineEnd = [] → motive s)
    (lineBreak : ∀ s t rest, s.ahead.dropWhile Token.isLineEnd = t :: rest →
      ¬ (s.ahead.takeWhile Token.isLineEnd).any (·.kind = .blankLine) → motive s)
    (blankLine : ∀ s t rest, s.ahead.dropWhile Token.isLineEnd = t :: rest →
      (s.ahead.takeWhile Token.isLineEnd).any (·.kind = .blankLine) →
      (∀ d s₁, recipe { s with ahead := s.ahead.dropWhile Token.isLineEnd } = .ok (d, s₁) →
        motive s₁) → motive s)
    (s : TokenStream) : motive s :=
  match hahead : s.ahead.dropWhile Token.isLineEnd with
  | [] => last s hahead
  | t :: rest =>
    if hblank : (s.ahead.takeWhile Token.isLineEnd).any (·.kind = .blankLine) then
      blankLine s t rest hahead hblank fun _ s₁ _h =>
        moreRecipes_induction last lineBreak blankLine s₁
    else lineBreak s t rest hahead hblank
termination_by s.ahead.length
decreasing_by
  have hle := (List.dropWhile_suffix Token.isLineEnd (l := s.ahead)).length_le
  exact Nat.lt_of_lt_of_le (length_recipe_lt _h) hle

end

end Grammar

/-- The recipes of a text, in the order they are written. -/
def Draft.parse (text : Text) : Except ParseError (List Draft) :=
  Grammar.book (TokenStream.ofText text)

end Cookbook
