import Cookbook.Proofs.Cooking.Independence
import Cookbook.Proofs.Cooking.Structured
import Cookbook.Proofs.Program.Consistency

/-!
# Cookbook.Proofs.Cooking.Termination

Cooking ends where nothing goes round.  Without loops a statement comes to the
one behind it, and under a limit a recipe that is served with stands one deeper,
so the depth that is left and the statements that are left go down in
lexicographic order (`endsFrom_of_straight`).  How often recipes are served
within each other on the way does not matter.

Shuffling a bowl draws numbers until one will do, which is taken on trust here:
all that is asked is that every bowl which a run comes to mix is mixed in the end
(`Program.MixesEnd`).
-/

namespace Cookbook

/-! ## What a run comes to -/

/-- Whether cooking from a state comes to a statement, in the recipe itself or in
one that is served with it, and with which frame and kitchen. -/
inductive Program.ComesTo (p : Program) (limit : UInt32) :
    UInt32 → Frame → Kitchen → Instruction → Frame → Kitchen → Prop
  /-- The statement that comes next. -/
  | here {depth : UInt32} {f : Frame} {k : Kitchen} {i : Instruction}
    (next : f.recipe.instructions[f.ip]? = some i) : ComesTo p limit depth f k i f k
  /-- What is come to behind the statement that comes next. -/
  | later {fuel : Nat} {depth : UInt32} {f f' : Frame} {k k' : Kitchen} {i j : Instruction}
    (next : f.recipe.instructions[f.ip]? = some j)
    (goesOn : (p.turn limit fuel depth j f k).outcome = .goesOn)
    (rest : ComesTo p limit depth (p.turn limit fuel depth j f k).frame
      (p.turn limit fuel depth j f k).kitchen i f' k') : ComesTo p limit depth f k i f' k'
  /-- What is come to in the recipe that the next statement serves with. -/
  | within {depth : UInt32} {f f' : Frame} {k k' : Kitchen} {i j : Instruction} {r : Recipe}
    (next : f.recipe.instructions[f.ip]? = some j) (action : j.action = .serveWith)
    (found : p.find? j.name = some r) (shallow : limit = 0 ∨ depth + 1 ≤ limit)
    (inner : ComesTo p limit (depth + 1) (f.servedWith r) k i f' k') :
    ComesTo p limit depth f k i f' k'

/-- Whether every bowl that is mixed when cooking from a state is mixed in the
end. -/
def Program.MixesEnd (p : Program) (limit depth : UInt32) (f : Frame) (k : Kitchen) : Prop :=
  ∀ i f' k', p.ComesTo limit depth f k i f' k' → i.action = .mix →
    ∃ fuel, ((f'.bowl i.bowl).shuffle fuel k'.shuffler).isSome

/-- Whether cooking from a state ends. -/
def Program.EndsFrom (p : Program) (limit depth : UInt32) (f : Frame) (k : Kitchen) : Prop :=
  ∃ fuel, (cookFrom p limit fuel depth f k).ending ≠ .starved

/-- Whether no statement of a recipe is one of a loop. -/
def Recipe.Straight (r : Recipe) : Prop := ∀ i ∈ r.instructions, ¬ Loops.IsTargeted i.action

section

variable {p : Program} {limit depth : UInt32} {fuel : Nat} {i : Instruction} {f : Frame}
  {k : Kitchen} {r : Recipe}

/-! ## Single statements -/

/-- A statement other than serving with a recipe has enough fuel at some time. -/
theorem exists_turn_fed (hmix : p.MixesEnd limit depth f k)
    (hi : f.recipe.instructions[f.ip]? = some i) (hwith : i.action ≠ .serveWith) :
    ∃ fuel, (p.turn limit fuel depth i f k).outcome ≠ .ends .starved := by
  by_cases ha : i.action = .mix
  · obtain ⟨fuel, hshuffled⟩ := hmix i f k (.here hi) ha
    obtain ⟨shuffled, hs⟩ := Option.isSome_iff_exists.1 hshuffled
    refine ⟨fuel, ?_⟩
    simp [Program.turn, step, tryStep, ha, mixStep, hs, Turn.goOn]
  · refine ⟨0, fun hstarved => ?_⟩
    rcases mayEnd_step hstarved with h | h
    · exact ha h
    · exact hwith h

theorem outcome_ofCooked_ne_starved {cooked : Cooked} (h : cooked.ending ≠ .starved) :
    (Turn.ofCooked f cooked).outcome ≠ .ends .starved := by
  unfold Turn.ofCooked
  cases hending : cooked.ending with
  | done => simp [Turn.goOn]
  | failed e => simp
  | starved => exact absurd hending h

/-- Serving with a recipe has enough fuel at some time if cooking the recipe
ends. -/
theorem exists_turn_serveWith_fed (hwith : i.action = .serveWith)
    (hinner : ∀ r, p.find? i.name = some r → limit = 0 ∨ depth + 1 ≤ limit →
      p.EndsFrom limit (depth + 1) (f.servedWith r) k) :
    ∃ fuel, (p.turn limit fuel depth i f k).outcome ≠ .ends .starved := by
  cases hr : p.find? i.name with
  | none => exact ⟨0, by simp [Program.turn, step_serveWith_of_none hwith hr, Turn.fail]⟩
  | some r =>
    by_cases hdeep : limit ≠ 0 ∧ depth + 1 > limit
    · exact ⟨0, by simp [Program.turn, step_serveWith hwith hr, hdeep, Turn.fail]⟩
    · have hshallow : limit = 0 ∨ depth + 1 ≤ limit := shallow_iff.2 hdeep
      obtain ⟨fuel, hfed⟩ := hinner r hr hshallow
      refine ⟨fuel, ?_⟩
      rw [turn_serveWith_eq hwith hr hshallow]
      exact outcome_ofCooked_ne_starved hfed

/-- Cooking ends if it ends behind the next statement. -/
theorem endsFrom_of_turn (hi : f.recipe.instructions[f.ip]? = some i)
    (hfed : (p.turn limit fuel depth i f k).outcome ≠ .ends .starved)
    (hrest : (p.turn limit fuel depth i f k).outcome = .goesOn →
      p.EndsFrom limit depth (p.turn limit fuel depth i f k).frame
        (p.turn limit fuel depth i f k).kitchen) : p.EndsFrom limit depth f k := by
  cases ho : (p.turn limit fuel depth i f k).outcome with
  | ends e =>
    refine ⟨fuel + 1, ?_⟩
    rw [cookFrom_of_ends hi ho]
    intro hstarved
    exact hfed (ho.trans (congrArg Outcome.ends hstarved))
  | goesOn =>
    have hturn : p.turn limit fuel depth i f k =
        .goOn (p.turn limit fuel depth i f k).frame (p.turn limit fuel depth i f k).kitchen := by
      rw [Turn.goOn, ← ho]
    obtain ⟨fuel', hends⟩ := hrest ho
    obtain ⟨enough, heq⟩ := leads_of_turn fuel hi hturn fuel' hends
    exact ⟨enough, by rw [heq]; exact hends⟩

/-! ## Recipes without loops -/

theorem ip_turn_of_goesOn (hi : ¬ Loops.IsTargeted i.action)
    (ho : (p.turn limit fuel depth i f k).outcome = .goesOn) :
    (p.turn limit fuel depth i f k).frame.ip = f.ip + 1 := by
  have hself : p.turn limit fuel depth i f k =
      (p.turn limit fuel depth i f k).moved f.recipe f.ip := step_eq_moved hi
  rw [hself, Turn.moved, if_pos ho]
  rfl

/-- Cooking a recipe without loops ends, if the recipes that may be served with
have none either and the limit is below the deepest depth. -/
theorem endsFrom_of_straight (hlimit : limit ≠ 0) (hmost : limit < deepest)
    (hp : ∀ name r, p.find? name = some r → r.Straight) (depth : UInt32) (f : Frame) (k : Kitchen)
    (hle : depth ≤ limit) (hr : f.recipe.Straight) (hmix : p.MixesEnd limit depth f k) :
    p.EndsFrom limit depth f k := by
  cases hi : f.recipe.instructions[f.ip]? with
  | none => exact ⟨1, by rw [cookFrom_of_none hi]; simp⟩
  | some i =>
    obtain ⟨hlt, -⟩ := List.getElem?_eq_some_iff.1 hi
    have hplain : ¬ Loops.IsTargeted i.action := hr i (List.mem_of_getElem? hi)
    obtain ⟨fuel, hfed⟩ :
        ∃ fuel, (p.turn limit fuel depth i f k).outcome ≠ .ends .starved := by
      by_cases hwith : i.action = .serveWith
      · refine exists_turn_serveWith_fed hwith fun r hfind hshallow => ?_
        have hdeeper : depth + 1 ≤ limit := hshallow.resolve_left hlimit
        have hdepth := toNat_add_one hmost hle
        have hdown := UInt32.le_iff_toNat_le.1 hdeeper
        exact endsFrom_of_straight hlimit hmost hp _ _ _ hdeeper (hp _ r hfind)
          fun i' f' k' hto => hmix i' f' k' (.within hi hwith hfind hshallow hto)
      · exact exists_turn_fed hmix hi hwith
    refine endsFrom_of_turn hi hfed fun ho => ?_
    have hrecipe : (p.turn limit fuel depth i f k).frame.recipe = f.recipe := recipe_turn
    have hip := ip_turn_of_goesOn hplain ho
    exact endsFrom_of_straight hlimit hmost hp _ _ _ hle (hrecipe ▸ hr)
      fun i' f' k' hto => hmix i' f' k' (.later hi ho hto)
termination_by (limit.toNat - depth.toNat, f.recipe.instructions.length - f.ip)
decreasing_by
  · apply Prod.Lex.left
    omega
  · rw [hrecipe, hip]
    apply Prod.Lex.right
    omega

end

/-! ## Runs -/

/-- A recipe that begins no loop has no statement of one: what ends a loop or is
set aside was paired with what begins it. -/
theorem Draft.Makes.straight {d : Draft} {r : Recipe} (h : d.Makes r) (hr : r.Lacks .loopStart) :
    r.Straight := by
  obtain ⟨method, hmethod, hinstructions⟩ := h.instructions
  have hresolved := Loops.resolved_of_resolve hmethod
  have hnone {s : Nat} {i : Instruction} : ¬ Loops.StandsAt method s .loopStart i := by
    rintro ⟨hget, ha⟩
    refine hr i ?_ ha
    rw [hinstructions]
    exact List.mem_append_left _ (List.mem_of_getElem? hget)
  unfold Recipe.Straight
  rw [hinstructions, List.forall_mem_append]
  constructor
  · intro i hi htargeted
    obtain ⟨n, hn⟩ := List.mem_iff_getElem?.1 hi
    rcases htargeted with ha | ha | ha
    · exact hnone ⟨hn, ha⟩
    · obtain ⟨j, hj, -⟩ := hresolved.end_target n i ⟨hn, ha⟩
      exact hnone hj
    · obtain ⟨s, j, hj, -⟩ := hresolved.exit_target n i ⟨hn, ha⟩
      exact hnone hj
  · simp [Loops.IsTargeted]

/-- In a program put together from drafts that begins no loop, cooking ends under
every limit below the deepest depth, normally or with an error, however recipes
are served with themselves and each other, as long as every bowl that is mixed is
mixed in the end. -/
theorem run_ends_without_loops {drafts : List Draft} {p : Program} {limit : UInt32} {k : Kitchen}
    (hp : Program.ofDrafts drafts = .ok p) (hloops : p.Lacks .loopStart) (hlimit : 1 ≤ limit)
    (hmost : limit < deepest)
    (hmix : ∀ main, p.mainRecipe? = some main → p.MixesEnd limit 0 (.ofRecipe main) k) :
    ∃ k', p.Ends limit k .done k' ∨ ∃ e, p.Ends limit k (.failed e) k' := by
  have hstraight (name : Text) (r : Recipe) (hr : p.find? name = some r) : r.Straight := by
    obtain ⟨d, -, -, hmakes⟩ := ((Program.madeOf_of_ofDrafts hp).found name r).1 hr
    exact hmakes.straight (hloops.find? hr)
  obtain ⟨-, main, -, -, -, hmain⟩ := (Program.madeOf_of_ofDrafts hp).main
  have hne : limit ≠ 0 := by
    rintro rfl
    exact absurd hlimit (by decide)
  obtain ⟨fuel, hfed⟩ : p.EndsFrom limit 0 (.ofRecipe main) k :=
    endsFrom_of_straight hne hmost hstraight 0 _ k UInt32.zero_le (hstraight _ main hmain)
      (hmix main hmain)
  have hrun : p.run limit fuel k = ((cookFrom p limit fuel 0 (.ofRecipe main) k).ending,
      (cookFrom p limit fuel 0 (.ofRecipe main) k).kitchen) := by
    rw [Program.run, hmain]
    rfl
  refine ⟨(cookFrom p limit fuel 0 (.ofRecipe main) k).kitchen, ?_⟩
  cases hending : (cookFrom p limit fuel 0 (.ofRecipe main) k).ending with
  | done => exact .inl ⟨by simp, fuel, by rw [hrun, hending]⟩
  | failed e => exact .inr ⟨e, by simp, fuel, by rw [hrun, hending]⟩
  | starved => exact absurd hending hfed

/-- A dough that is mixed and served with a crust, which is served with the dough
again. -/
theorem run_ends_without_loops_dough :
    let asks (name : Text) : Instruction := { action := .serveWith, name }
    let drafts : List Draft :=
      [{ title := "Dough", method := [{ action := .mix }, asks "crust"] },
        { title := "Crust", method := [asks "dough"] }]
    ∃ p, Program.ofDrafts drafts = .ok p ∧ ∀ k, ∃ k',
      p.Ends 1 k .done k' ∨ ∃ e, p.Ends 1 k (.failed e) k' := by
  intro asks drafts
  let dough : Recipe := { name := "Dough", instructions := [{ action := .mix }, asks "crust"] }
  let crust : Recipe := { name := "Crust", instructions := [asks "dough"] }
  let p := Program.ofRecipes "Dough" [dough, crust]
  have hp : Program.ofDrafts drafts = .ok p := by decide
  have hcrust : p.find? "crust" = some crust := by decide
  refine ⟨p, hp, fun k => run_ends_without_loops hp (by decide) (by decide) (by decide) ?_⟩
  intro main hmain
  obtain rfl : dough = main := Option.some.inj hmain
  -- Only the dough is mixed, and that first: the crust may not ask for it again.
  have hdeep (fuel : Nat) (f : Frame) (k : Kitchen) :
      (p.turn 1 fuel 1 (asks "dough") f k).outcome ≠ .goesOn := nofun
  have hfails (fuel : Nat) (f : Frame) (k : Kitchen) :
      (p.turn 1 fuel 0 (asks "crust") f k).outcome ≠ .goesOn := by
    cases fuel <;> nofun
  intro i f' k' hto ha
  cases hto with
  | here next =>
    cases next
    exact ⟨0, rfl⟩
  | within next action =>
    cases next
    cases action
  | @later fuel _ _ _ _ _ _ j next goesOn rest =>
    cases next
    obtain ⟨f, hnext, hturn⟩ : ∃ f, f.recipe.instructions[f.ip]? = some (asks "crust") ∧
      p.turn 1 fuel 0 { action := .mix } (.ofRecipe dough) k = .goOn f k := ⟨_, rfl, rfl⟩
    rw [hturn] at rest
    cases rest with
    | here next =>
      obtain rfl := Option.some.inj (hnext.symm.trans next)
      cases ha
    | later next goesOn =>
      obtain rfl := Option.some.inj (hnext.symm.trans next)
      exact absurd goesOn (hfails _ _ _)
    | within next action found shallow inner =>
      obtain rfl := Option.some.inj (hnext.symm.trans next)
      obtain rfl := Option.some.inj (hcrust.symm.trans found)
      cases inner with
      | here next =>
        cases next
        cases ha
      | later next goesOn =>
        cases next
        exact absurd goesOn (hdeep _ _ _)
      | within next action found shallow => exact absurd shallow (by decide)

end Cookbook
