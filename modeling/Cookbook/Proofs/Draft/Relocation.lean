import Cookbook.Proofs.Draft.Likeness
import Cookbook.Proofs.Token.Seam

/-!
# Cookbook.Proofs.Draft.Relocation

A recipe book may stand anywhere.  Tokens that are moved to other places look
alike (`Token.alike_relocated`), so they are laid out in the same parts, and make
up the same recipes with their places moved along (`Layout.Recipes.relocated`).
-/

namespace Cookbook

/-- The same statement at another place. -/
def Instruction.relocated (g : Location → Location) (i : Instruction) : Instruction :=
  { i with location := g i.location }

/-- The same recipe, written at another place. -/
def Draft.relocated (g : Location → Location) (d : Draft) : Draft :=
  { d with location := g d.location, method := d.method.map (Instruction.relocated g) }

variable {g : Location → Location}

/-! ## Tokens -/

namespace Token

@[simp] theorem isBreak_relocated (t : Token) : (t.relocated g).isBreak = t.isBreak := rfl

theorem map_bare_relocated (ts : List Token) : (ts.map (relocated g)).map bare = ts.map bare := by
  rw [List.map_map]
  rfl

theorem join_relocated (ts : List Token) : join (ts.map (relocated g)) = join ts := by
  rw [← join_map_bare, map_bare_relocated, join_map_bare]

theorem alike_relocated (ts : List Token) : List.Forall₂ Alike (ts.map (relocated g)) ts := by
  rw [List.forall₂_map_left_iff, List.forall₂_same]
  exact fun t _ => ⟨rfl, .inl rfl⟩

end Token

theorem commentText_relocated (ts : List Token) :
    Grammar.commentText (ts.map (Token.relocated g)) = Grammar.commentText ts := by
  unfold Grammar.commentText
  simp only [List.dropWhile_map, ← List.map_reverse, Function.comp_def, Token.isBreak_relocated]
  cases ((ts.dropWhile (·.isBreak)).reverse.dropWhile (·.isBreak)).reverse with
  | nil => rfl
  | cons first others => simp [List.flatMap_map]

/-- A sentence at another place asks for the same there. -/
theorem read_relocated {run : List Token} {i : Instruction}
    (h : Instruction.read run = .ok (some i)) :
    Instruction.read (run.map (Token.relocated g)) = .ok (some (i.relocated g)) := by
  cases run with
  | nil => cases h
  | cons first others =>
    -- a statement is placed at its first token
    have hsame := read_of_map_bare rfl h
    rw [h, Except.ok.injEq, Option.some.injEq] at hsame
    have hlocation : i.location = first.location := congrArg Instruction.location hsame
    rw [Instruction.relocated, hlocation]
    exact read_of_map_bare (Token.map_bare_relocated (first :: others)) h

/-! ## Parts -/

namespace Layout

variable {ts : List Token}

theorem Optional.relocated {part : List Token → α → Prop} {absent a : α}
    (h : Optional part absent ts a)
    (hpart : ∀ {ts a}, part ts a → part (ts.map (Token.relocated g)) a) :
    Optional part absent (ts.map (Token.relocated g)) a := by
  cases h with
  | here h => exact .here (hpart h)
  | missing => exact .missing

theorem Title.relocated {name : Text} {l : Location} (h : Title ts name l) :
    Title (ts.map (Token.relocated g)) name (g l) := by
  cases h with
  | @intro first stop others hwords hstop =>
    have hmoved : ∀ t ∈ (first :: others).map (Token.relocated g),
        t.isBreak = false ∧ t.isStray = false := List.forall_mem_map.2 hwords
    have hjoin : Token.join ((first :: others).map (Token.relocated g)) =
        Token.join (first :: others) := Token.join_relocated _
    rw [← hjoin, List.map_cons, List.map_append]
    exact .intro hmoved hstop

theorem Comment.relocated {text : Text} (h : Comment ts text) :
    Comment (ts.map (Token.relocated g)) text := by
  cases h with
  | intro hts hblank =>
    rw [← commentText_relocated (g := g), List.map_append]
    exact .intro (List.forall_mem_map.2 hts) hblank

theorem Statement.relocated {i : Instruction} (h : Statement ts i) :
    Statement (ts.map (Token.relocated g)) (i.relocated g) where
  read := read_relocated h.read
  expected := List.forall_mem_map.2 h.expected
  first t ht := by
    rw [List.head?_map, Option.map_eq_some_iff] at ht
    obtain ⟨u, hu, rfl⟩ := ht
    exact h.first u hu

theorem Sentences.relocated {is : List Instruction} (h : Sentences ts is) :
    Sentences (ts.map (Token.relocated g)) (is.map (Instruction.relocated g)) := by
  induction h with
  | nil => exact .nil
  | cons h hstop hrest ih =>
    rw [List.map_append, List.map_cons]
    exact .cons h.relocated hstop ih

theorem Statements.relocated {is : List Instruction} (h : Statements ts is) :
    Statements (ts.map (Token.relocated g)) (is.map (Instruction.relocated g)) where
  ne_nil := by simpa using h.ne_nil
  sentences := by
    rw [List.filter_map]
    exact h.sentences.relocated

/-! ## Recipes -/

namespace Parts

variable {p : Parts} {d : Draft}

/-- The same tokens at other places. -/
def relocated (g : Location → Location) (p : Parts) : Parts where
  title := p.title.map (Token.relocated g)
  gap := p.gap.relocated g
  comment := p.comment.map (Token.relocated g)
  ingredients := p.ingredients.map (Token.relocated g)
  cookingTime := p.cookingTime.map (Token.relocated g)
  oven := p.oven.map (Token.relocated g)
  heading := p.heading.map (Token.relocated g)
  statements := p.statements.map (Token.relocated g)
  serves := p.serves.map (Token.relocated g)

theorem contents_relocated (p : Parts) :
    (p.relocated g).contents = p.contents.map (Token.relocated g) := by
  simp only [contents, relocated, List.map_append]

theorem tokens_relocated (p : Parts) :
    (p.relocated g).tokens = p.tokens.map (Token.relocated g) := by
  rw [tokens, tokens, contents_relocated]
  simp only [relocated, List.map_append, List.map_cons]

theorem Yields.relocated (h : p.Yields d) : (p.relocated g).Yields (d.relocated g) where
  title := h.title.relocated
  gap := h.gap
  comment := h.comment.relocated Comment.relocated
  comment_eq_nil_iff := by
    have hcomment : (p.relocated g).comment = p.comment.map (Token.relocated g) := rfl
    rw [contents_relocated, hcomment, ← List.map_append, List.map_eq_nil_iff]
    simp only [Opening.opens_alike_iff _ (Token.alike_relocated _)]
    exact h.comment_eq_nil_iff
  ingredients := h.ingredients.alike (Token.alike_relocated _) Ingredients.alike
  cookingTime := h.cookingTime.alike (Token.alike_relocated _) CookingTime.alike
  oven := h.oven.alike (Token.alike_relocated _) Oven.alike
  heading := h.heading.alike (Token.alike_relocated _)
  statements := h.statements.relocated
  serves := h.serves.alike (Token.alike_relocated _) Serves.alike

theorem SetApart.relocated {rest : List Token} (h : p.SetApart rest) :
    (p.relocated g).SetApart (rest.map (Token.relocated g)) :=
  h.alike (Token.alike_relocated _) (Token.alike_relocated _) (Token.alike_relocated _)

end Parts

/-- Recipes that are moved to another place are laid out alike. -/
theorem Recipes.relocated {ds : List Draft} (h : Recipes Parts.SetApart ts ds) :
    Recipes Parts.SetApart (ts.map (Token.relocated g)) (ds.map (Draft.relocated g)) := by
  induction h with
  | last hp hfits htrail =>
    rw [List.map_append, ← Parts.tokens_relocated]
    exact .last hp.relocated hfits.relocated (htrail.alike (Token.alike_relocated _))
  | cons hp hfits hblank hrest ih =>
    rw [List.map_append, List.map_cons, ← Parts.tokens_relocated]
    exact .cons hp.relocated hfits.relocated hblank ih

end Layout

end Cookbook
