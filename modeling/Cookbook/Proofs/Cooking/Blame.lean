import Cookbook.Proofs.Cooking.Failing
import Cookbook.Proofs.Program.RoundTrip

/-!
# Cookbook.Proofs.Cooking.Blame

Which recipe an error names.  A statement that asks for what is not there is broken
off, and the cook of its recipe gives that up with an error (`cause_of_shortage?`).
A statement fails either by itself or because of a recipe that it serves with
(`failed_turn_cases`), and in the second case the error is passed on as it is.  So at
the bottom of every error there is one move that failed by itself
(`Program.GivenUpAt`), and the error names the recipe of that move
(`exists_givenUpAt`).

In a program that was put together from drafts every recipe that is served with
is there (`exists_find?_of_ofDrafts`), so no run complains that one is missing
(`run_names_innermost`).
-/

namespace Cookbook

/-! ## Being broken off -/

section

variable {p p' : Program} {limit limit' depth depth' : UInt32} {fuel fuel' : Nat}
  {cook cook' : Cook} {i : Instruction} {f : Frame} {k : Kitchen} {e : RunError} {what : Shortage}

/-- What a statement is broken off for does not depend on the rest of the program. -/
theorem shortage?_tryStep :
    (tryStep p' limit' fuel' cook' depth' i f k).shortage? =
      (tryStep p limit fuel cook depth i f k).shortage? := by
  unfold tryStep
  cases i.action <;> rfl

/-- The cook tells what a statement was broken off for, and where it stands. -/
theorem cause_of_shortage? (h : (tryStep p limit fuel cook depth i f k).shortage? = some what)
    (hfailed : (step p limit fuel cook depth i f k).outcome = .ends (.failed e)) :
    e.cause = .lacking i.location what := by
  unfold step at hfailed
  cases htrial : tryStep p limit fuel cook depth i f k with
  | ok turn =>
    rw [htrial] at h
    cases h
  | error lack =>
    rw [htrial] at h hfailed
    obtain rfl : lack.what = what := Option.some.inj h
    cases hfailed
    rfl

end

/-! ## Failing by itself -/

section

variable {p : Program} {limit depth : UInt32} {fuel : Nat} {i : Instruction} {f : Frame}
  {k : Kitchen} {e : RunError}

/-- Serving dishes fails only at a value that stands for no character. -/
theorem failed_serveStep {count : Int64} {next : Frame → Kitchen → Turn}
    (hnext : ∀ f k, (next f k).outcome ≠ .ends (.failed e))
    (h : (serveStep count f k next).outcome = .ends (.failed e)) :
    ∃ n, e = { recipe := f.recipe.name, cause := .noCharacter n } := by
  unfold serveStep at h
  simp only at h
  cases hrefused : (Served.firstDishes f.dishes k.served count).refused with
  | none =>
    simp only [hrefused] at h
    exact absurd h (hnext _ _)
  | some n =>
    simp only [hrefused] at h
    cases h
    exact ⟨n, rfl⟩

theorem failed_refrigerateStep (h : (refrigerateStep depth i f k).outcome = .ends (.failed e)) :
    ∃ n, e = { recipe := f.recipe.name, cause := .noCharacter n } := by
  unfold refrigerateStep at h
  cases hcount : i.count with
  | none => simp [hcount] at h
  | some count =>
    simp only [hcount] at h
    split at h
    · exact failed_serveStep (fun _ _ => by simp) h
    · cases h

/-- A statement that does not serve with another recipe blames its own, for a
reason. -/
theorem warrants_of_failed_turn (hwith : i.action ≠ .serveWith)
    (h : (p.turn limit fuel depth i f k).outcome = .ends (.failed e)) :
    e.recipe = f.recipe.name ∧ i.Warrants p f e.cause := by
  by_cases hstop : i.action = .refrigerate
  · rw [Program.turn, step, tryStep, hstop] at h
    obtain ⟨n, rfl⟩ := failed_refrigerateStep h
    exact ⟨rfl, .inr hstop⟩
  by_cases hserve : i.action = .serve
  · rw [Program.turn, step, tryStep, hserve] at h
    simp only [Trial.caught_ok] at h
    split at h
    · obtain ⟨n, rfl⟩ := failed_serveStep (fun _ _ => by simp [Turn.goOn]) h
      exact ⟨rfl, .inl hserve⟩
    · cases h
  exact ((careful_step hwith hstop hserve).faulty e h).2

/-- What such a statement fails for has nothing to do with other recipes. -/
theorem outcome_step_of_failed_turn (hwith : i.action ≠ .serveWith)
    (h : (p.turn limit fuel depth i f k).outcome = .ends (.failed e)) (fuel' : Nat) (cook : Cook) :
    (step p limit fuel' cook depth i f k).outcome = .ends (.failed e) := by
  unfold Program.turn step tryStep at h
  unfold step tryStep
  cases ha : i.action <;> simp only [ha, Trial.caught_ok] at h ⊢
  case mix =>
    unfold mixStep at h
    split at h <;> cases h
  case serveWith => exact absurd ha hwith
  all_goals exact h

theorem outcome_ofCooked_eq_failed_iff {cooked : Cooked} :
    (Turn.ofCooked f cooked).outcome = .ends (.failed e) ↔ cooked.ending = .failed e := by
  unfold Turn.ofCooked
  cases cooked.ending <;> simp [Turn.goOn]

/-- A statement fails by itself, blaming its own recipe for a reason, or because
the recipe that it serves with does. -/
theorem failed_turn_cases (h : (p.turn limit fuel depth i f k).outcome = .ends (.failed e)) :
    (e.recipe = f.recipe.name ∧ i.Warrants p f e.cause ∧
      ∀ fuel' cook, (step p limit fuel' cook depth i f k).outcome = .ends (.failed e)) ∨
    ∃ r, i.action = .serveWith ∧ p.find? i.name = some r ∧ (limit = 0 ∨ depth + 1 ≤ limit) ∧
      (p.cook limit fuel (depth + 1) (f.servedWith r) k).ending = .failed e := by
  by_cases hwith : i.action = .serveWith
  · cases hr : p.find? i.name with
    | none =>
      rw [Program.turn, step_serveWith_of_none hwith hr] at h
      refine .inl ?_
      cases h
      exact ⟨rfl, ⟨hwith, rfl, hr⟩, fun fuel' cook => by rw [step_serveWith_of_none hwith hr]; rfl⟩
    | some r =>
      by_cases hdeep : limit ≠ 0 ∧ depth + 1 > limit
      · have hstep (fuel' : Nat) (cook : Cook) :
            step p limit fuel' cook depth i f k = .fail f k .tooDeep := by
          rw [step_serveWith hwith hr, if_pos hdeep]
        rw [Program.turn, hstep] at h
        refine .inl ?_
        cases h
        exact ⟨rfl, hwith, fun fuel' cook => by rw [hstep]; rfl⟩
      · have hlimit : limit = 0 ∨ depth + 1 ≤ limit := shallow_iff.2 hdeep
        rw [turn_serveWith_eq hwith hr hlimit, outcome_ofCooked_eq_failed_iff] at h
        exact .inr ⟨r, hwith, rfl, hlimit, h⟩
  · obtain ⟨hrecipe, hcause⟩ := warrants_of_failed_turn hwith h
    exact .inl ⟨hrecipe, hcause, outcome_step_of_failed_turn hwith h⟩

end

/-! ## The move at the bottom of an error -/

/-- Whether cooking from a state is given up with an error at a move: the last
move of the recipe, which fails by itself, or that of a recipe served with. -/
inductive Program.GivenUpAt (p : Program) (limit : UInt32) :
    UInt32 → Frame → Kitchen → Move → RunError → Prop
  /-- The last move fails whatever cooking another recipe would come to. -/
  | here {fuel : Nat} {depth : UInt32} {f : Frame} {k : Kitchen} {m : Move} {e : RunError}
    (last : (p.moves limit fuel depth f k).getLast? = some m)
    (fails : ∀ fuel' cook,
      (step p limit fuel' cook depth m.statement m.frame m.kitchen).outcome = .ends (.failed e)) :
    GivenUpAt p limit depth f k m e
  /-- The last move serves with a recipe that is given up. -/
  | within {fuel : Nat} {depth : UInt32} {f : Frame} {k : Kitchen} {m n : Move} {r : Recipe}
    {e : RunError} (last : (p.moves limit fuel depth f k).getLast? = some n)
    (action : n.statement.action = .serveWith) (found : p.find? n.statement.name = some r)
    (shallow : limit = 0 ∨ depth + 1 ≤ limit)
    (inner : GivenUpAt p limit (depth + 1) (n.frame.servedWith r) n.kitchen m e) :
    GivenUpAt p limit depth f k m e

section

variable {p : Program} {limit depth : UInt32} {fuel : Nat} {f : Frame} {k : Kitchen} {m : Move}
  {e : RunError}

/-- At the bottom of every error is a move that fails by itself and whose recipe
the error names. -/
theorem exists_givenUpAt (h : (cookFrom p limit fuel depth f k).ending = .failed e) :
    ∃ m, p.GivenUpAt limit depth f k m e ∧ e.recipe = m.frame.recipe.name ∧
      m.statement.Warrants p m.frame e.cause := by
  -- the recipe that a move serves with is cooked on less fuel
  induction fuel using Nat.strongRecOn generalizing depth f k with
  | _ fuel ih =>
    obtain ⟨before, n, hmoves, hturn⟩ := exists_last_move h
    have hlast : (p.moves limit fuel depth f k).getLast? = some n := by
      rw [hmoves, List.getLast?_concat]
    have hmade : n.Made p limit fuel depth f.recipe :=
      made_of_mem_moves (List.mem_of_getLast? hlast)
    obtain ⟨fuel', hlt, hmove⟩ := hmade.turn
    have hfailed : (p.turn limit fuel' depth n.statement n.frame n.kitchen).outcome =
        .ends (.failed e) := by rw [← hmove, hturn]
    rcases failed_turn_cases hfailed with ⟨hrecipe, hcause, hself⟩ | ⟨r, ha, hr, hlimit, hinner⟩
    · exact ⟨n, .here hlast hself, hrecipe, hcause⟩
    · obtain ⟨m, hm, hblamed⟩ := ih fuel' hlt hinner
      exact ⟨m, .within hlast ha hr hlimit hm, hblamed⟩

/-- The move at the bottom of an error is one of the recipe that is cooked or of
one on the shelf. -/
theorem Program.GivenUpAt.recipe_mem (h : p.GivenUpAt limit depth f k m e)
    (hf : ∃ name, p.find? name = some f.recipe) : ∃ name, p.find? name = some m.frame.recipe := by
  induction h with
  | here last _ =>
    rw [(made_of_mem_moves (List.mem_of_getLast? last)).recipe]
    exact hf
  | within last _ found _ _ ih => exact ih ⟨_, found⟩

theorem Program.GivenUpAt.statement_mem (h : p.GivenUpAt limit depth f k m e) :
    m.statement ∈ m.frame.recipe.instructions := by
  induction h with
  | here last _ =>
    exact List.mem_of_getElem? (made_of_mem_moves (List.mem_of_getLast? last)).statement
  | within _ _ _ _ _ ih => exact ih

/-- If the statement of that move was broken off, the error tells what for. -/
theorem Program.GivenUpAt.cause_of_shortage? (h : p.GivenUpAt limit depth f k m e) {p' : Program}
    {limit' depth' : UInt32} {fuel' : Nat} {cook : Cook} {what : Shortage}
    (hlacks : (tryStep p' limit' fuel' cook depth' m.statement m.frame m.kitchen).shortage? =
      some what) : e.cause = .lacking m.statement.location what := by
  induction h with
  | here _ fails =>
    exact Cookbook.cause_of_shortage? (shortage?_tryStep.trans hlacks) (fails 0 cook)
  | within _ _ _ _ _ ih => exact ih hlacks

end

/-! ## Programs put together from drafts -/

section

variable {p : Program} {drafts : List Draft}

theorem exists_mainRecipe?_of_ofDrafts (h : Program.ofDrafts drafts = .ok p) :
    ∃ main, p.mainRecipe? = some main := by
  obtain ⟨d, rest, rfl, hmain, hshelf, -⟩ := Program.ofDrafts_eq_ok h
  obtain ⟨r, -, -, -, hrest⟩ := Program.shelve_cons_eq_ok hshelf
  refine ⟨r, ?_⟩
  rw [Program.mainRecipe?, Program.find?, hmain]
  exact Program.get?_of_shelve hrest (Shelf.get?_insert_self _ _ r)

/-- Every recipe that is served with is there. -/
theorem exists_find?_of_ofDrafts (h : Program.ofDrafts drafts = .ok p) {name : Text} {r : Recipe}
    {i : Instruction} (hr : p.find? name = some r) (hi : i ∈ r.instructions)
    (ha : i.action = .serveWith) : (p.find? i.name).isSome := by
  obtain ⟨-, -, -, -, -, hcalls⟩ := Program.ofDrafts_eq_ok h
  exact Program.missingCall?_eq_none_iff.1 hcalls _ (Shelf.mem_of_find? hr) i hi ha

end

/-! ## Runs -/

theorem run_of_mainRecipe? {p : Program} {limit : UInt32} {fuel : Nat} {k : Kitchen}
    {main : Recipe} (h : p.mainRecipe? = some main) :
    (p.run limit fuel k).1 = (cookFrom p limit fuel 0 (.ofRecipe main) k).ending := by
  rw [Program.run, h]
  rfl

/-- A run that ends does so normally or with an error.  The error names the main
recipe if there is none; otherwise it names the recipe of the move at its bottom,
and what it says of that move is so.  If the statement of that move was broken off,
it says what for, with the place of the statement.  In a program put together from
drafts it is never that a recipe is missing. -/
theorem run_names_innermost {p : Program} {limit : UInt32} {fuel : Nat} {k : Kitchen}
    (hfed : (p.run limit fuel k).1 ≠ .starved) :
    ((p.run limit fuel k).1 = .done ∨ ∃ e, (p.run limit fuel k).1 = .failed e ∧
      (p.mainRecipe? = none ∧ e = { recipe := p.main, cause := .noMainRecipe } ∨
        ∃ main m, p.mainRecipe? = some main ∧
          p.GivenUpAt limit 0 (.ofRecipe main) k m e ∧ e.recipe = m.frame.recipe.name ∧
          m.statement.Warrants p m.frame e.cause ∧
          ∀ fuel' cook depth what,
            (tryStep p limit fuel' cook depth m.statement m.frame m.kitchen).shortage? =
                some what →
              e.cause = .lacking m.statement.location what)) ∧
    (∀ drafts, Program.ofDrafts drafts = .ok p → ∀ e, (p.run limit fuel k).1 = .failed e →
      e.cause ≠ .noMainRecipe ∧ ∀ name, e.cause ≠ .noSuchRecipe name) ∧
    RunError.Cause.message .noMainRecipe = "There is no main recipe to cook" ∧
    ∀ name, RunError.Cause.message (.noSuchRecipe name) =
      "There is no recipe called " ++ name.quoted := by
  refine ⟨?_, ?_, rfl, fun _ => rfl⟩
  · cases hending : (p.run limit fuel k).1 with
    | done => exact .inl rfl
    | starved => exact absurd hending hfed
    | failed e =>
      refine .inr ⟨e, rfl, ?_⟩
      cases hmain : p.mainRecipe? with
      | none =>
        rw [Program.run, hmain] at hending
        cases hending
        exact .inl ⟨rfl, rfl⟩
      | some main =>
        rw [run_of_mainRecipe? hmain] at hending
        obtain ⟨m, hm, hblamed⟩ := exists_givenUpAt hending
        exact .inr ⟨main, m, rfl, hm, hblamed.1, hblamed.2, fun _ _ _ _ => hm.cause_of_shortage?⟩
  · intro drafts hdrafts e hending
    obtain ⟨main, hmain⟩ := exists_mainRecipe?_of_ofDrafts hdrafts
    rw [run_of_mainRecipe? hmain] at hending
    obtain ⟨m, hm, -, hcause⟩ := exists_givenUpAt hending
    constructor
    · intro hnone
      rw [hnone] at hcause
      exact hcause
    · intro name hmissing
      rw [hmissing] at hcause
      obtain ⟨ha, rfl, hnone⟩ := hcause
      obtain ⟨title, hrecipe⟩ := hm.recipe_mem ⟨_, hmain⟩
      have hthere := exists_find?_of_ofDrafts hdrafts hrecipe hm.statement_mem ha
      rw [hnone] at hthere
      cases hthere

/-- A soup served with a garnish that is served with herbs, which fail: the herbs
are blamed. -/
theorem run_names_innermost_herbs :
    let asks (name : Text) : Instruction := { action := .serveWith, name }
    let stirs : Instruction := { action := .stir, bowl := 9, location := { line := 3, col := 4 } }
    let drafts : List Draft :=
      [{ title := "Soup", method := [asks "GARNISH"] },
        { title := "Garnish", method := [{ action := .clean }, asks "herbs"] },
        { title := "Herbs", method := [stirs] }]
    let k := Kitchen.prepare .empty 0
    let e : RunError :=
      { recipe := "Herbs", cause := .lacking { line := 3, col := 4 } .nothingToTake }
    ∃ p, Program.ofDrafts drafts = .ok p ∧ (p.run 2 9 k).1 = .failed e ∧
      ∃ main m, p.mainRecipe? = some main ∧ p.GivenUpAt 2 0 (.ofRecipe main) k m e ∧
        e.recipe = m.frame.recipe.name := by
  intro asks stirs drafts k e
  have hrun : (Program.ofDrafts drafts).toOption.map (fun p => (p.run 2 9 k).1) =
      some (.failed e) := by decide +kernel
  cases hp : Program.ofDrafts drafts with
  | error _ =>
    rw [hp] at hrun
    cases hrun
  | ok p =>
    rw [hp] at hrun
    have hfailed : (p.run 2 9 k).1 = .failed e := Option.some.inj hrun
    have hfed : (p.run 2 9 k).1 ≠ .starved := by simp [hfailed]
    obtain ⟨hends, hthere, -⟩ := run_names_innermost hfed
    refine ⟨p, rfl, hfailed, ?_⟩
    rcases hends with hdone | ⟨e', he', hwhy⟩
    · rw [hfailed] at hdone
      cases hdone
    · obtain rfl : e = e' := Ending.failed.inj (hfailed.symm.trans he')
      rcases hwhy with ⟨-, hnone⟩ | ⟨main, m, hmain, hm, hrecipe, -⟩
      · exact absurd (congrArg RunError.cause hnone) (hthere drafts hp e hfailed).1
      · exact ⟨main, m, hmain, hm, hrecipe⟩

end Cookbook
