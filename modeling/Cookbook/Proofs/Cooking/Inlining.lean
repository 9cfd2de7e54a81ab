import Cookbook.Proofs.Cooking.Footprint

/-!
# Cookbook.Proofs.Cooking.Inlining

Serving with a helper is carrying it out in place.  A helper works on bowls and
on ingredients that it declares, and on nothing else (`Recipe.IsHelper`).  Cooked
in a frame of its own it works on copies of the bowls; carried out in place it
works on the bowls themselves, with its ingredients beside those of the recipe it
is carried out in (`Frame.inlining`).  The two frames agree on all that a helper
looks at, so they still do when it has come to its end (`agrees_inlining`).
-/

namespace Cookbook

/-! ## What is declared -/

namespace Shelf

variable {κ α : Type} [Ord κ] [Std.TransOrd κ] [Std.LawfulEqOrd κ] [DecidableEq κ]

theorem contains_foldl_insert (l : List (κ × α)) (s : Shelf κ α) (k : κ) :
    (l.foldl (fun s e => s.insert e.1 e.2) s).contains k ↔ k ∈ l.map Prod.fst ∨ s.contains k := by
  induction l generalizing s with
  | nil => simp
  | cons e l ih =>
    rw [List.foldl_cons, ih, contains, get?_insert]
    by_cases hk : k = e.1 <;> simp [hk, contains]

end Shelf

/-- A label is in use for an ingredient exactly if the ingredient is declared. -/
theorem contains_declare (is : List Ingredient) (x : Text) :
    (Frame.declare is).contains x ↔ x ∈ is.map Ingredient.name := by
  rw [Frame.declare, Shelf.ofList, Shelf.contains_foldl_insert, List.map_map]
  simp [Shelf.contains, Function.comp_def]

/-! ## Helpers -/

/-- Whether a recipe works on bowls and on ingredients that it declares, and on
nothing else. -/
structure Recipe.IsHelper (r : Recipe) : Prop where
  plain : ∀ i ∈ r.instructions,
    i.action ∉ [Action.serveWith, .pour, .addDry, .refrigerate, .serve]
  declared : ∀ i ∈ r.instructions, ∀ x, i.Uses x → x ∈ r.ingredients.map Ingredient.name

/-- The frame that a helper is carried out in place in: its method stands in place
of the recipe's own, and its ingredients, as they are declared, beside the
recipe's own. -/
def Frame.inlining (f : Frame) (helper : Recipe) : Frame :=
  { f with
    recipe := { f.recipe with instructions := helper.instructions }
    ingredients := f.ingredients.overlay (Frame.declare helper.ingredients) }

/-- All bowls, the ingredients that a recipe declares, and the place. -/
def Recipe.footprint (r : Recipe) : Footprint where
  bowls _ := True
  dishes _ := False
  ingredients x := x ∈ r.ingredients.map Ingredient.name
  place := True

namespace Recipe.IsHelper

variable {helper : Recipe} {i : Instruction}

theorem keepsToItself (h : helper.IsHelper) (hi : i ∈ helper.instructions) :
    i.action.KeepsToItself := by
  have hplain := h.plain i hi
  simp only [List.mem_cons, List.not_mem_nil, or_false, not_or] at hplain
  simp [Action.KeepsToItself, hplain]

theorem action_ne_pour (h : helper.IsHelper) (hi : i ∈ helper.instructions) :
    i.action ≠ .pour := by
  intro ha
  simpa [ha] using h.plain i hi

theorem covers (h : helper.IsHelper) (hi : i ∈ helper.instructions) :
    helper.footprint.Covers i where
  bowl _ := trivial
  dish hdish := by
    have hpour := h.action_ne_pour hi
    unfold Action.namesDish at hdish
    split at hdish
    · next ha => exact hpour ha
    · cases hdish
  ingredient := h.declared i hi

end Recipe.IsHelper

section

variable {p : Program} {limit depth depth' : UInt32} {fuel : Nat} {f : Frame} {k : Kitchen}
  {helper : Recipe}

theorem get?_inlining_of_mem {x : Text} (hx : x ∈ helper.ingredients.map Ingredient.name) :
    (f.inlining helper).ingredients.get? x = (Frame.declare helper.ingredients).get? x := by
  have hdeclared := (contains_declare helper.ingredients x).2 hx
  obtain ⟨b, hb⟩ := Option.isSome_iff_exists.1 hdeclared
  rw [Frame.inlining, Shelf.get?_overlay, hb, Option.some_or]

theorem get?_inlining_of_not_mem {x : Text} (hx : x ∉ helper.ingredients.map Ingredient.name) :
    (f.inlining helper).ingredients.get? x = f.ingredients.get? x := by
  have hfree : (Frame.declare helper.ingredients).get? x = none := by
    rw [← Option.not_isSome_iff_eq_none]
    exact fun hdeclared => hx ((contains_declare helper.ingredients x).1 hdeclared)
  rw [Frame.inlining, Shelf.get?_overlay, hfree, Option.none_or]

/-- A helper cannot tell the frame it is served in from the one it is carried out
in place in. -/
theorem agrees_inlining (h : helper.IsHelper) :
    (p.cook limit fuel depth (f.servedWith helper) k).AgreesOn helper.footprint
      (p.cook limit fuel depth' (f.inlining helper) k) := by
  have hframes : (f.servedWith helper).AgreesOn helper.footprint ((f.inlining helper).jump 0) :=
    { bowls := fun _ _ => rfl
      dishes := fun _ hn => hn.elim
      ingredients := fun _ hx => get?_inlining_of_mem hx
      ip := fun _ => rfl }
  exact agrees_cookFrom trivial hframes rfl (fun _ => h.covers) fun _ => h.keepsToItself

theorem outcome_ofCooked_eq_goesOn_iff {cooked : Cooked} :
    (Turn.ofCooked f cooked).outcome = .goesOn ↔ cooked.ending = .done := by
  unfold Turn.ofCooked
  cases cooked.ending <;> simp [Turn.goOn]

theorem ofCooked_of_done {cooked : Cooked} (h : cooked.ending = .done) :
    Turn.ofCooked f cooked =
      .goOn { f with bowls := f.bowls.overlay cooked.frame.bowls }.advance cooked.kitchen := by
  rw [Turn.ofCooked, h]

/-- What is there already is left alone by a helper that is carried out in place. -/
theorem get?_ingredients_inlining (h : helper.IsHelper) {x : Text}
    (hx : x ∉ helper.ingredients.map Ingredient.name) :
    (p.cook limit fuel depth (f.inlining helper) k).frame.ingredients.get? x =
      f.ingredients.get? x := by
  have hunwritten : ∀ i ∈ helper.instructions, ¬ i.Writes x :=
    fun i hi hwrites => hx (h.declared i hi x hwrites.2)
  exact (get?_ingredients_cookFrom hunwritten).trans (get?_inlining_of_not_mem hx)

/-- A helper that comes to its end has left the dishes alone. -/
theorem dishes_cookFrom_of_done (h : helper.IsHelper)
    (hcode : f.recipe.instructions = helper.instructions)
    (hdone : (cookFrom p limit fuel depth f k).ending = .done) :
    (cookFrom p limit fuel depth f k).frame.dishes = f.dishes := by
  induction fuel, f, k using cookFrom_induction p limit depth with
  | starved f k => rfl
  | finished fuel f k hi => rw [cookFrom_of_none hi]
  | goesOn fuel f k i hi ho ih =>
    have hmem : i ∈ helper.instructions := hcode ▸ List.mem_of_getElem? hi
    have hplain := h.plain i hmem
    simp only [List.mem_cons, List.not_mem_nil, or_false, not_or] at hplain
    have hconfined : f.Confined i (p.turn limit fuel depth i f k).frame :=
      (careful_step hplain.1 hplain.2.2.2.1 hplain.2.2.2.2).confined ho
    have hdishes : (p.turn limit fuel depth i f k).frame.dishes = f.dishes :=
      Shelf.ext_get? fun n => hconfined.dishes n fun hdish =>
        False.elim ((h.covers hmem).dish hdish)
    rw [cookFrom_of_goesOn hi ho] at hdone ⊢
    rw [ih (by rw [recipe_turn, hcode]) hdone, hdishes]
  | ends fuel f k i e hi ho =>
    rw [cookFrom_of_ends hi ho] at hdone
    have hmem : i ∈ helper.instructions := hcode ▸ List.mem_of_getElem? hi
    have ha : i.action = .refrigerate := mayEnd_step (ho.trans (congrArg _ hdone))
    simpa [ha] using h.plain i hmem

end

/-- Serving with a helper comes to its end if and only if carrying the helper out
in place does, at any depth, if none of its ingredients has the name of one that is
there already.  Then both leave the same bowls, dishes and ingredients, and the same
in the refrigerator and in the shuffler. -/
theorem turn_serveWith_iff_inlined {p : Program} {limit depth : UInt32} {i : Instruction}
    {f : Frame} {helper : Recipe} (ha : i.action = .serveWith)
    (hr : p.find? i.name = some helper) (hlimit : limit = 0 ∨ depth + 1 ≤ limit)
    (h : helper.IsHelper)
    (hapart : ∀ x ∈ helper.ingredients.map Ingredient.name, ¬ f.ingredients.contains x)
    (k : Kitchen) (depth' : UInt32) :
    let served (fuel : Nat) := p.turn limit fuel depth i f k
    let inlined (fuel : Nat) := p.cook limit fuel depth' (f.inlining helper) k
    ((∃ fuel, (served fuel).outcome = .goesOn) ↔ ∃ fuel, (inlined fuel).ending = .done) ∧
      ∀ fuel fuel', (served fuel).outcome = .goesOn → (inlined fuel').ending = .done →
        (inlined fuel').frame.bowls = (served fuel).frame.bowls ∧
        (inlined fuel').frame.dishes = (served fuel).frame.dishes ∧
        (∀ x, f.ingredients.contains x →
          (inlined fuel').frame.ingredients.get? x = (served fuel).frame.ingredients.get? x) ∧
        (inlined fuel').kitchen = (served fuel).kitchen := by
  intro served inlined
  let callee (fuel : Nat) := p.cook limit fuel (depth + 1) (f.servedWith helper) k
  have hserved (fuel : Nat) : served fuel = .ofCooked f (callee fuel) :=
    turn_serveWith_eq ha hr hlimit
  have hagrees (fuel : Nat) : (callee fuel).AgreesOn helper.footprint (inlined fuel) :=
    agrees_inlining h
  have hends (fuel : Nat) : (served fuel).outcome = .goesOn ↔ (inlined fuel).ending = .done := by
    rw [hserved, outcome_ofCooked_eq_goesOn_iff, (hagrees fuel).done]
  refine ⟨exists_congr hends, fun fuel fuel' hgoes hdone' => ?_⟩
  have hdone : (inlined fuel).ending = .done := (hends fuel).1 hgoes
  have hfed {cooked : Cooked} (hcooked : cooked.ending = .done) : cooked.ending ≠ .starved := by
    simp [hcooked]
  have hfuel : inlined fuel' = inlined fuel := cookFrom_unique (hfed hdone') (hfed hdone)
  rw [hfuel, hserved, ofCooked_of_done ((hagrees fuel).done.1 hdone)]
  refine ⟨?_, ?_, fun x hx => ?_, (hagrees fuel).kitchen⟩
  · calc (inlined fuel).frame.bowls
        = (callee fuel).frame.bowls :=
          Shelf.ext_get? fun n => (hagrees fuel).frame.bowls n trivial
      _ = f.bowls.overlay (callee fuel).frame.bowls := overlay_servedWith.symm
  · exact dishes_cookFrom_of_done h (f := (f.inlining helper).jump 0) rfl hdone
  · exact get?_ingredients_inlining h fun hmem => hapart x hmem hx

/-- A custard that is whisked as often as there is sugar, served with or carried out
in place beside a salted soup. -/
theorem turn_serveWith_iff_inlined_custard :
    let asks : Instruction := { action := .serveWith, name := "custard" }
    let soup : Recipe := { name := "Soup", ingredients := [{ name := "salt", value := some 7 }] }
    let custard : Recipe :=
      { name := "Custard", ingredients := [{ name := "sugar", value := some 2 }]
        instructions :=
          [{ action := .loopStart, name := "Whisk", keyword := "whisked", ingredient := "sugar"
             target := 2 },
            { action := .put, ingredient := "sugar", bowl := 2 },
            { action := .loopEnd, name := "Whisk", keyword := "whisked", ingredient := "sugar" }] }
    let p := Program.ofRecipes "Soup" [soup, custard]
    let f := ((Frame.ofRecipe soup).setBowl 1 { items := [{ number := 5 }] }).setDish 1 .empty
    let k := Kitchen.prepare .empty 0
    (p.turn 1 20 0 asks f k).outcome = .goesOn ∧ ∀ depth', ∃ fuel',
      (p.cook 1 fuel' depth' (f.inlining custard) k).ending = .done ∧
      (p.cook 1 fuel' depth' (f.inlining custard) k).frame.bowls.entries =
        [(1, { items := [{ number := 5 }] }),
          (2, { items := [{ number := 1 }, { number := 2 }] })] ∧
      (p.cook 1 fuel' depth' (f.inlining custard) k).frame.dishes = f.dishes := by
  intro asks soup custard p f k
  have hr : p.find? asks.name = some custard := by decide
  have hnames : ∀ i ∈ custard.instructions,
      i.ingredient ∈ custard.ingredients.map Ingredient.name := by decide
  have hhelper : custard.IsHelper := by
    refine ⟨by decide, fun i hi x hx => ?_⟩
    obtain ⟨-, rfl, -⟩ := hx
    exact hnames i hi
  have hgoes : (p.turn 1 20 0 asks f k).outcome = .goesOn := by decide +kernel
  have hbowls : (p.turn 1 20 0 asks f k).frame.bowls.entries =
      [(1, { items := [{ number := 5 }] }),
        (2, { items := [{ number := 1 }, { number := 2 }] })] := by
    decide +kernel
  have hdishes : (p.turn 1 20 0 asks f k).frame.dishes = f.dishes := by decide +kernel
  have hlimit : (1 : UInt32) = 0 ∨ (0 : UInt32) + 1 ≤ 1 := by decide
  have hapart : ∀ x ∈ custard.ingredients.map Ingredient.name, ¬ f.ingredients.contains x := by
    decide
  refine ⟨hgoes, fun depth' => ?_⟩
  obtain ⟨hends, hsame⟩ :=
    turn_serveWith_iff_inlined (i := asks) rfl hr hlimit hhelper hapart k depth'
  dsimp only at hends hsame
  obtain ⟨fuel', hdone⟩ := hends.1 ⟨20, hgoes⟩
  obtain ⟨hsameBowls, hsameDishes, -⟩ := hsame 20 fuel' hgoes hdone
  refine ⟨fuel', hdone, ?_, hsameDishes.trans hdishes⟩
  rw [hsameBowls]
  exact hbowls

end Cookbook
