import Cookbook.Proofs.Cooking.Places
import Cookbook.Proofs.Cooking.ServingWith

/-!
# Cookbook.Proofs.Cooking.Independence

What a program does not ask for makes no difference to it.  A statement looks at
the refrigerator only to take a number and at the shuffler only to mix a bowl, so
two kitchens that differ in one of them (`Kitchen.AlikeBut`) stay alike in all
else as long as no statement asks for it.

This is kept by a statement (`alike_step`), by a recipe with all that is served
with it (`ignores_cookFrom`) and by a run (`alike_run`), however they end.  So a
program that never mixes has one outcome for all seeds, and one that never takes
a number has one outcome for all refrigerators (`outcome_iff_of_lacks`).
-/

namespace Cookbook

/-! ## Kitchens that differ in one thing -/

/-- Whether two kitchens differ at most in what statements with an action look
at. -/
structure Kitchen.AlikeBut (a : Action) (k k' : Kitchen) : Prop where
  served : k'.served = k.served
  refrigerator : a ≠ .take → k'.refrigerator = k.refrigerator
  shuffler : a ≠ .mix → k'.shuffler = k.shuffler

/-- Whether two turns differ at most in what statements with an action look at. -/
structure Turn.AlikeBut (a : Action) (t t' : Turn) : Prop where
  outcome : t'.outcome = t.outcome
  frame : t'.frame = t.frame
  kitchen : t.kitchen.AlikeBut a t'.kitchen

/-- Whether two recipes ended alike, but for what statements with an action look
at. -/
structure Cooked.AlikeBut (a : Action) (c c' : Cooked) : Prop where
  ending : c'.ending = c.ending
  frame : c'.frame = c.frame
  kitchen : c.kitchen.AlikeBut a c'.kitchen

/-- Whether no statement of a recipe has an action. -/
def Recipe.Lacks (r : Recipe) (a : Action) : Prop := ∀ i ∈ r.instructions, i.action ≠ a

instance (r : Recipe) (a : Action) : Decidable (r.Lacks a) :=
  inferInstanceAs (Decidable (∀ i ∈ r.instructions, i.action ≠ a))

/-- Whether no statement of any recipe has an action. -/
def Program.Lacks (p : Program) (a : Action) : Prop := ∀ e ∈ p.recipes.entries, e.2.Lacks a

instance (p : Program) (a : Action) : Decidable (p.Lacks a) :=
  inferInstanceAs (Decidable (∀ e ∈ p.recipes.entries, e.2.Lacks a))

theorem Program.Lacks.find? {p : Program} {a : Action} {name : Text} {r : Recipe} (h : p.Lacks a)
    (hr : p.find? name = some r) : r.Lacks a :=
  h _ (Shelf.mem_of_find? hr)

/-- Whether a way to cook ends alike in kitchens that differ in what no statement
asks for. -/
def Cook.Ignores (a : Action) (cook : Cook) : Prop :=
  ∀ depth f k k', f.recipe.Lacks a → k.AlikeBut a k' →
    (cook depth f k).AlikeBut a (cook depth f k')

/-! ## Statements -/

section

variable {p : Program} {limit depth : UInt32} {fuel : Nat} {cook : Cook} {a : Action}
  {i : Instruction} {f : Frame} {k k' : Kitchen}

theorem alike_goOn (hk : k.AlikeBut a k') : (Turn.goOn f k).AlikeBut a (Turn.goOn f k') :=
  ⟨rfl, rfl, hk⟩

theorem alike_fail (hk : k.AlikeBut a k') (cause : RunError.Cause) :
    (Turn.fail f k cause).AlikeBut a (Turn.fail f k' cause) :=
  ⟨rfl, rfl, hk⟩

theorem alike_ofAttempt (hk : k.AlikeBut a k') (attempt : Attempt) (place : Location) :
    ((Trial.ofAttempt attempt k).caught place).AlikeBut a
      ((Trial.ofAttempt attempt k').caught place) := by
  rw [Trial.caught_ofAttempt, Trial.caught_ofAttempt]
  cases attempt.fault with
  | none => exact alike_goOn hk
  | some fault => exact alike_fail hk _

/-- Both kitchens hand out the same number. -/
theorem alike_takeStep (hk : k.AlikeBut a k') (ha : a ≠ .take) :
    ((takeStep i f k).caught i.location).AlikeBut a ((takeStep i f k').caught i.location) := by
  have hrefrigerator := hk.refrigerator ha
  unfold takeStep
  cases f.ingredient i.ingredient with
  | error what => exact alike_fail hk _
  | ok b =>
    have hleft : Kitchen.AlikeBut a { k with refrigerator := k.refrigerator.take.2 }
        { k' with refrigerator := k.refrigerator.take.2 } :=
      ⟨hk.served, fun _ => rfl, hk.shuffler⟩
    simp only [hrefrigerator]
    cases k.refrigerator.take.1 with
    | some n => exact alike_goOn hleft
    | none => exact alike_fail hleft _

/-- Both kitchens shuffle alike. -/
theorem alike_mixStep (hk : k.AlikeBut a k') (ha : a ≠ .mix) :
    (mixStep fuel i f k).AlikeBut a (mixStep fuel i f k') := by
  unfold mixStep
  rw [hk.shuffler ha]
  cases (f.bowl i.bowl).shuffle fuel k.shuffler with
  | none => exact ⟨rfl, rfl, hk⟩
  | some shuffled => exact alike_goOn ⟨hk.served, hk.refrigerator, fun _ => rfl⟩

theorem alike_loopStartStep (hk : k.AlikeBut a k') :
    ((loopStartStep i f k).caught i.location).AlikeBut a
      ((loopStartStep i f k').caught i.location) := by
  unfold loopStartStep
  cases f.ingredient i.ingredient with
  | error what => exact alike_fail hk _
  | ok b => exact alike_goOn hk

theorem alike_loopEndStep (hk : k.AlikeBut a k') :
    ((loopEndStep i f k).caught i.location).AlikeBut a
      ((loopEndStep i f k').caught i.location) := by
  unfold loopEndStep
  split
  · exact alike_goOn hk
  · cases f.ingredient i.ingredient with
    | error what => exact alike_fail hk _
    | ok b => exact alike_goOn hk

/-- Both kitchens serve the same behind the same. -/
theorem alike_serveStep {count : Int64} {next : Frame → Kitchen → Turn} (hk : k.AlikeBut a k')
    (hnext : ∀ f k k', k.AlikeBut a k' → (next f k).AlikeBut a (next f k')) :
    (serveStep count f k next).AlikeBut a (serveStep count f k' next) := by
  unfold serveStep
  rw [hk.served]
  have hleft : Kitchen.AlikeBut a
      { k with served := (Served.firstDishes f.dishes k.served count).written }
      { k' with served := (Served.firstDishes f.dishes k.served count).written } :=
    ⟨rfl, hk.refrigerator, hk.shuffler⟩
  cases hrefused : (Served.firstDishes f.dishes k.served count).refused with
  | some n =>
    simp only [hrefused]
    exact alike_fail hleft _
  | none =>
    simp only [hrefused]
    exact hnext _ _ _ hleft

theorem alike_refrigerateStep (hk : k.AlikeBut a k') :
    (refrigerateStep depth i f k).AlikeBut a (refrigerateStep depth i f k') := by
  unfold refrigerateStep
  cases i.count with
  | none => exact ⟨rfl, rfl, hk⟩
  | some count =>
    by_cases hdepth : depth = 0
    · simp only [if_pos hdepth]
      exact alike_serveStep hk fun _ _ _ h => ⟨rfl, rfl, h⟩
    · simp only [if_neg hdepth]
      exact ⟨rfl, rfl, hk⟩

theorem alike_ofCooked {c c' : Cooked} (h : c.AlikeBut a c') :
    (Turn.ofCooked f c).AlikeBut a (Turn.ofCooked f c') := by
  unfold Turn.ofCooked
  rw [h.ending, h.frame]
  cases c.ending with
  | done => exact alike_goOn h.kitchen
  | failed e => exact ⟨rfl, rfl, h.kitchen⟩
  | starved => exact ⟨rfl, rfl, h.kitchen⟩

theorem alike_step_serveWith (hp : p.Lacks a) (hcook : cook.Ignores a) (hk : k.AlikeBut a k')
    (hwith : i.action = .serveWith) :
    (step p limit fuel cook depth i f k).AlikeBut a (step p limit fuel cook depth i f k') := by
  cases hr : p.find? i.name with
  | none =>
    rw [step_serveWith_of_none hwith hr, step_serveWith_of_none hwith hr]
    exact alike_fail hk _
  | some r =>
    rw [step_serveWith hwith hr, step_serveWith hwith hr]
    split
    · exact alike_fail hk _
    · exact alike_ofCooked (hcook _ _ _ _ (hp.find? hr) hk)

/-- A statement with another action does the same in both kitchens. -/
theorem alike_step (hp : p.Lacks a) (hcook : cook.Ignores a) (hk : k.AlikeBut a k')
    (hi : i.action ≠ a) :
    (step p limit fuel cook depth i f k).AlikeBut a (step p limit fuel cook depth i f k') := by
  by_cases hwith : i.action = .serveWith
  · exact alike_step_serveWith hp hcook hk hwith
  unfold step tryStep
  cases ha : i.action <;> simp only [ha, Trial.caught_ok] at hi ⊢
  case take => exact alike_takeStep hk hi.symm
  case mix => exact alike_mixStep hk hi.symm
  case pour | setAside => exact alike_goOn hk
  case loopStart => exact alike_loopStartStep hk
  case loopEnd => exact alike_loopEndStep hk
  case serveWith => exact absurd ha hwith
  case refrigerate => exact alike_refrigerateStep hk
  case serve =>
    split
    · exact alike_serveStep hk fun _ _ _ h => alike_goOn h
    · exact alike_goOn hk
  all_goals exact alike_ofAttempt hk _ _

end

/-! ## Recipes and runs -/

section

variable {p : Program} {limit : UInt32} {fuel : Nat} {a : Action} {k k' : Kitchen}

/-- A recipe ends alike in both kitchens, whatever is served with it. -/
theorem ignores_cookFrom (hp : p.Lacks a) : Cook.Ignores a (cookFrom p limit fuel) := by
  induction fuel with
  | zero =>
    intro depth f k k' _ hk
    exact ⟨rfl, rfl, hk⟩
  | succ fuel ih =>
    intro depth f k k' hr hk
    cases hi : f.recipe.instructions[f.ip]? with
    | none =>
      rw [cookFrom_of_none hi, cookFrom_of_none hi]
      exact ⟨rfl, rfl, hk⟩
    | some i =>
      have hother : i.action ≠ a := hr i (List.mem_of_getElem? hi)
      have hturn : (p.turn limit fuel depth i f k).AlikeBut a (p.turn limit fuel depth i f k') :=
        alike_step hp ih hk hother
      cases ho : (p.turn limit fuel depth i f k).outcome with
      | goesOn =>
        have hsame : (p.turn limit fuel depth i f k).frame.recipe = f.recipe := recipe_turn
        rw [cookFrom_of_goesOn hi ho, cookFrom_of_goesOn hi (hturn.outcome.trans ho), hturn.frame]
        exact ih depth _ _ _ (hsame ▸ hr) hturn.kitchen
      | ends e =>
        rw [cookFrom_of_ends hi ho, cookFrom_of_ends hi (hturn.outcome.trans ho)]
        exact ⟨rfl, hturn.frame, hturn.kitchen⟩

/-- A run ends alike in both kitchens, on the same fuel. -/
theorem alike_run (limit : UInt32) (fuel : Nat) (hp : p.Lacks a) (hk : k.AlikeBut a k') :
    (p.run limit fuel k').1 = (p.run limit fuel k).1 ∧
      (p.run limit fuel k).2.AlikeBut a (p.run limit fuel k').2 := by
  unfold Program.run
  cases hmain : p.mainRecipe? with
  | none => exact ⟨rfl, hk⟩
  | some main =>
    have hcooked : (p.cook limit fuel 0 (.ofRecipe main) k).AlikeBut a
        (p.cook limit fuel 0 (.ofRecipe main) k') :=
      ignores_cookFrom hp 0 _ k k' (hp.find? hmain) hk
    exact ⟨hcooked.ending, hcooked.kitchen⟩

/-- Whether cooking a program ends, how it ends and what it serves. -/
def Program.Outcome (p : Program) (limit : UInt32) (k : Kitchen) (ending : Ending)
    (served : Array UInt8) : Prop :=
  ∃ k', p.Ends limit k ending k' ∧ k'.served = served

theorem Program.outcome_of_run (fuel : Nat) {ending : Ending} {served : Array UInt8}
    (hending : (p.run limit fuel k).1 = ending) (hfed : ending ≠ .starved)
    (hserved : (p.run limit fuel k).2.served = served) : p.Outcome limit k ending served :=
  ⟨(p.run limit fuel k).2, ⟨hfed, fuel, Prod.ext hending rfl⟩, hserved⟩

theorem outcome_of_alike {ending : Ending} {served : Array UInt8} (hp : p.Lacks a)
    (hk : k.AlikeBut a k') (h : p.Outcome limit k ending served) :
    p.Outcome limit k' ending served := by
  obtain ⟨k₁, ⟨hfed, fuel, hrun⟩, hserved⟩ := h
  obtain ⟨hending, hkitchen⟩ := alike_run limit fuel hp hk
  rw [hrun] at hending hkitchen
  exact Program.outcome_of_run fuel hending hfed (hkitchen.served.trans hserved)

end

/-- The seed only matters to a program that mixes, and the refrigerator only to
one that takes numbers: otherwise a run ends with the one if and only if it ends
with the other, in the same way and with the same served. -/
theorem outcome_iff_of_lacks (p : Program) (limit : UInt32) :
    (p.Lacks .mix → ∀ r seed seed' ending served,
      p.Outcome limit (.prepare r seed) ending served ↔
        p.Outcome limit (.prepare r seed') ending served) ∧
    (p.Lacks .take → ∀ r r' seed ending served,
      p.Outcome limit (.prepare r seed) ending served ↔
        p.Outcome limit (.prepare r' seed) ending served) := by
  constructor
  · intro hp r seed seed' ending served
    have hk (s s' : UInt32) : (Kitchen.prepare r s).AlikeBut .mix (.prepare r s') :=
      ⟨rfl, fun _ => rfl, fun h => absurd rfl h⟩
    exact ⟨outcome_of_alike hp (hk _ _), outcome_of_alike hp (hk _ _)⟩
  · intro hp r r' seed ending served
    have hk (s s' : Refrigerator) : (Kitchen.prepare s seed).AlikeBut .take (.prepare s' seed) :=
      ⟨rfl, fun h => absurd rfl h, fun _ => rfl⟩
    exact ⟨outcome_of_alike hp (hk _ _), outcome_of_alike hp (hk _ _)⟩

/-- A punch that takes its juice from the refrigerator and is the same for all
seeds, and a salad that is mixed and is the same for all refrigerators. -/
theorem outcome_iff_of_lacks_punch :
    let serving : List Instruction := [{ action := .pour }, { action := .serve, count := some 1 }]
    let punch : Recipe :=
      { name := "Punch", ingredients := [{ name := "juice" }]
        instructions := [{ action := .take, ingredient := "juice" },
          { action := .put, ingredient := "juice" }] ++ serving }
    let salad : Recipe :=
      { name := "Salad"
        ingredients := [{ name := "corn", value := some 1 }, { name := "peas", value := some 2 }]
        instructions := [{ action := .put, ingredient := "corn" },
          { action := .put, ingredient := "peas" }, { action := .mix }] ++ serving }
    let punches := Program.ofRecipes "Punch" [punch]
    let salads := Program.ofRecipes "Salad" [salad]
    let numbers : Refrigerator := .stocked (Text.ofString "7 8")
    (punches.Lacks .mix ∧ ∀ seed,
        punches.Outcome 0 (.prepare numbers seed) .done (Text.ofString "7").toArray) ∧
      salads.Lacks .take ∧ ∀ r,
        salads.Outcome 0 (.prepare r 5) .done (Text.ofString "12").toArray := by
  intro serving punch salad punches salads numbers
  have hpunch : punches.Lacks .mix := by decide
  have hsalad : salads.Lacks .take := by decide
  have hpunches : punches.Outcome 0 (.prepare numbers 0) .done (Text.ofString "7").toArray :=
    Program.outcome_of_run 9 (by decide +kernel) (by decide) (by decide +kernel)
  have hsalads : salads.Outcome 0 (.prepare .empty 5) .done (Text.ofString "12").toArray :=
    Program.outcome_of_run 9 (by decide +kernel) (by decide) (by decide +kernel)
  refine ⟨⟨hpunch, fun seed => ?_⟩, hsalad, fun r => ?_⟩
  · exact ((outcome_iff_of_lacks punches 0).1 hpunch numbers 0 seed _ _).1 hpunches
  · exact ((outcome_iff_of_lacks salads 0).2 hsalad .empty r 5 _ _).1 hsalads

end Cookbook
