import Cookbook.Proofs.Cooking.Places

/-!
# Cookbook.Proofs.Cooking.Moves

The statements that a recipe carries out itself, one after the other, each with
the state it meets and what it leads to (`Program.moves`).  Serving with another
recipe is one move; what the other recipe does are moves of its own.

A move is what its statement leads to (`made_of_mem_moves`), and a recipe that
is given up ends with the move that failed (`exists_last_move`).  Moves that lead
from state to state can be put together (`Program.Path`), and if they come to the
end of the recipe, then they are the moves of the recipe (`Program.Path.cookFrom`).
-/

namespace Cookbook

/-- A statement that is carried out, the state it meets and what it leads to. -/
structure Move where
  statement : Instruction
  frame : Frame
  kitchen : Kitchen
  turn : Turn
deriving DecidableEq

namespace Program

/-- The move that carries out a statement. -/
def move (p : Program) (limit : UInt32) (fuel : Nat) (depth : UInt32) (i : Instruction) (f : Frame)
    (k : Kitchen) : Move where
  statement := i
  frame := f
  kitchen := k
  turn := p.turn limit fuel depth i f k

/-- The moves of a recipe from the statement that the frame has come to. -/
def moves (p : Program) (limit : UInt32) : Nat → UInt32 → Frame → Kitchen → List Move
  | 0, _, _, _ => []
  | fuel + 1, depth, f, k =>
    match f.recipe.instructions[f.ip]? with
    | none => []
    | some i =>
      let turn := p.turn limit fuel depth i f k
      p.move limit fuel depth i f k ::
        match turn.outcome with
        | .goesOn => moves p limit fuel depth turn.frame turn.kitchen
        | .ends _ => []

end Program

/-- Whether a move is one of the given recipe: its statement stands where the
frame has come to, and is carried out with some of the fuel. -/
structure Move.Made (m : Move) (p : Program) (limit : UInt32) (fuel : Nat) (depth : UInt32)
    (r : Recipe) : Prop where
  recipe : m.frame.recipe = r
  statement : m.frame.recipe.instructions[m.frame.ip]? = some m.statement
  turn : ∃ fuel' < fuel, m.turn = p.turn limit fuel' depth m.statement m.frame m.kitchen

section

variable {p : Program} {limit depth : UInt32} {fuel : Nat} {i : Instruction} {f : Frame}
  {k : Kitchen}

theorem moves_of_none (hi : f.recipe.instructions[f.ip]? = none) :
    p.moves limit (fuel + 1) depth f k = [] := by
  rw [Program.moves, hi]

theorem moves_of_goesOn (hi : f.recipe.instructions[f.ip]? = some i)
    (ho : (p.turn limit fuel depth i f k).outcome = .goesOn) :
    p.moves limit (fuel + 1) depth f k =
      p.move limit fuel depth i f k ::
        p.moves limit fuel depth (p.turn limit fuel depth i f k).frame
          (p.turn limit fuel depth i f k).kitchen := by
  rw [Program.moves, hi]
  simp only [ho]

theorem moves_of_ends {e : Ending} (hi : f.recipe.instructions[f.ip]? = some i)
    (ho : (p.turn limit fuel depth i f k).outcome = .ends e) :
    p.moves limit (fuel + 1) depth f k = [p.move limit fuel depth i f k] := by
  rw [Program.moves, hi]
  simp only [ho]

/-- The recipe stays the same from move to move. -/
theorem made_of_mem_moves {m : Move} (hm : m ∈ p.moves limit fuel depth f k) :
    m.Made p limit fuel depth f.recipe := by
  induction fuel, f, k using cookFrom_induction p limit depth with
  | starved f k => cases hm
  | finished fuel f k hi =>
    rw [moves_of_none hi] at hm
    cases hm
  | goesOn fuel f k i hi ho ih =>
    rw [moves_of_goesOn hi ho] at hm
    rcases List.mem_cons.1 hm with rfl | hm
    · exact ⟨rfl, hi, fuel, Nat.lt_succ_self fuel, rfl⟩
    · obtain ⟨hrecipe, hstatement, fuel', hlt, hturn⟩ := ih hm
      exact ⟨hrecipe.trans recipe_turn, hstatement, fuel', Nat.lt_succ_of_lt hlt, hturn⟩
  | ends fuel f k i e hi ho =>
    rw [moves_of_ends hi ho, List.mem_singleton] at hm
    rw [hm]
    exact ⟨rfl, hi, fuel, Nat.lt_succ_self fuel, rfl⟩

/-- A recipe that is given up leaves what its last move leaves. -/
theorem exists_last_move {e : RunError}
    (h : (cookFrom p limit fuel depth f k).ending = .failed e) :
    ∃ before m, p.moves limit fuel depth f k = before ++ [m] ∧
      m.turn =
        { outcome := .ends (.failed e)
          frame := (cookFrom p limit fuel depth f k).frame
          kitchen := (cookFrom p limit fuel depth f k).kitchen } := by
  induction fuel, f, k using cookFrom_induction p limit depth with
  | starved f k => cases h
  | finished fuel f k hi =>
    rw [cookFrom_of_none hi] at h
    cases h
  | goesOn fuel f k i hi ho ih =>
    rw [cookFrom_of_goesOn hi ho] at h ⊢
    obtain ⟨before, m, hmoves, hturn⟩ := ih h
    exact ⟨_ :: before, m, (moves_of_goesOn hi ho).trans (congrArg _ hmoves), hturn⟩
  | ends fuel f k i ending hi ho =>
    rw [cookFrom_of_ends hi ho] at h ⊢
    refine ⟨[], _, moves_of_ends hi ho, ?_⟩
    obtain rfl : ending = .failed e := h
    rw [← ho]
    rfl

end

/-! ## Paths -/

/-- Whether some moves lead from one state to another. -/
inductive Program.Path (p : Program) (limit depth : UInt32) :
    Frame → Kitchen → List Move → Frame → Kitchen → Prop
  | stay {f : Frame} {k : Kitchen} : Path p limit depth f k [] f k
  | go {fuel : Nat} {i : Instruction} {f f₁ f' : Frame} {k k₁ k' : Kitchen} {ms : List Move}
    (next : f.recipe.instructions[f.ip]? = some i)
    (turn : p.turn limit fuel depth i f k = .goOn f₁ k₁)
    (rest : Path p limit depth f₁ k₁ ms f' k') :
    Path p limit depth f k
      ({ statement := i, frame := f, kitchen := k, turn := .goOn f₁ k₁ } :: ms) f' k'

namespace Program.Path

variable {p : Program} {limit depth : UInt32} {f f' f'' : Frame} {k k' k'' : Kitchen}
  {ms ms' : List Move}

theorem append (h : p.Path limit depth f k ms f' k') (h' : p.Path limit depth f' k' ms' f'' k'') :
    p.Path limit depth f k (ms ++ ms') f'' k'' := by
  induction h with
  | stay => exact h'
  | go next turn rest ih => exact .go next turn (ih h')

/-- A path to the end of the recipe is what is cooked, if there is fuel enough. -/
theorem cookFrom (h : p.Path limit depth f k ms f' k')
    (hend : f'.recipe.instructions[f'.ip]? = none) :
    ∃ enough, ∀ fuel ≥ enough,
      Cookbook.cookFrom p limit fuel depth f k =
        { ending := .done, frame := f', kitchen := k' } ∧
      p.moves limit fuel depth f k = ms := by
  induction h with
  | stay =>
    refine ⟨1, fun fuel hfuel => ?_⟩
    obtain ⟨m, rfl⟩ := Nat.exists_eq_add_of_le' hfuel
    exact ⟨cookFrom_of_none hend, moves_of_none hend⟩
  | @go fuel₁ i f f₁ f' k k₁ k' ms next turn rest ih =>
    obtain ⟨enough, hrest⟩ := ih hend
    refine ⟨max fuel₁ enough + 1, fun fuel hfuel => ?_⟩
    obtain ⟨m, rfl⟩ : ∃ m, fuel = m + 1 := ⟨fuel - 1, by omega⟩
    have hturn : p.turn limit m depth i f k = .goOn f₁ k₁ := by
      rw [turn_mono (show fuel₁ ≤ m by omega) (by simp [turn, Turn.goOn]), turn]
    have ho : (p.turn limit m depth i f k).outcome = .goesOn := by rw [hturn, Turn.goOn]
    obtain ⟨hcook, hmoves⟩ := hrest m (by omega)
    constructor
    · rw [cookFrom_of_goesOn next ho, hturn]
      exact hcook
    · rw [moves_of_goesOn next ho, Program.move, hturn]
      exact congrArg _ hmoves

end Program.Path

end Cookbook
