import Cookbook.Proofs.Cooking.Failing

/-!
# Cookbook.Proofs.Cooking.Footprint

What a statement looks at: a bowl, a dish, an ingredient.  Two frames that agree
on all of it (`Frame.AgreesOn`) cannot be told apart by the statement: it goes on
in both or in neither, and leaves frames that agree on as much as before
(`agrees_step`).  So do frames that are cooked from the same method
(`agrees_cookFrom`), as long as neither serves anything.

What a statement does not write it leaves alone: `Frame.Confined` says so of
bowls and dishes, and `get?_ingredients_step` of ingredients.
-/

namespace Cookbook

/-! ## Footprints -/

/-- Some bowls, dishes and ingredients of a frame, and maybe the place that it
has come to. -/
structure Footprint where
  bowls : UInt32 → Prop
  dishes : UInt32 → Prop
  ingredients : Text → Prop
  place : Prop

/-- Whether a statement looks an ingredient up.  The end of a loop need not name
one. -/
def Instruction.Uses (i : Instruction) (x : Text) : Prop :=
  i.action.namesIngredient ∧ i.ingredient = x ∧ (i.action = .loopEnd → x ≠ [])

/-- Whether a statement works on nothing outside a footprint. -/
structure Footprint.Covers (s : Footprint) (i : Instruction) : Prop where
  bowl : i.action.namesBowl → s.bowls i.bowl
  dish : i.action.namesDish → s.dishes i.dish
  ingredient : ∀ x, i.Uses x → s.ingredients x

/-- Whether two frames do not differ in a footprint. -/
structure Frame.AgreesOn (s : Footprint) (f g : Frame) : Prop where
  bowls : ∀ n, s.bowls n → g.bowls.get? n = f.bowls.get? n
  dishes : ∀ n, s.dishes n → g.dishes.get? n = f.dishes.get? n
  ingredients : ∀ x, s.ingredients x → g.ingredients.get? x = f.ingredients.get? x
  ip : s.place → g.ip = f.ip

namespace Frame.AgreesOn

variable {s : Footprint} {f g : Frame} {n : UInt32} {x : Text}

theorem bowl (h : f.AgreesOn s g) (hn : s.bowls n) : g.bowl n = f.bowl n := by
  rw [Frame.bowl, Frame.bowl, h.bowls n hn]

theorem dish (h : f.AgreesOn s g) (hn : s.dishes n) : g.dish n = f.dish n := by
  rw [Frame.dish, Frame.dish, h.dishes n hn]

theorem ingredient (h : f.AgreesOn s g) (hx : s.ingredients x) :
    g.ingredient x = f.ingredient x := by
  rw [Frame.ingredient, Frame.ingredient, h.ingredients x hx]

theorem setBowl (h : f.AgreesOn s g) (n : UInt32) (c : Stack) :
    (f.setBowl n c).AgreesOn s (g.setBowl n c) :=
  { h with
    bowls := fun m hm => by
      rw [Frame.setBowl, Frame.setBowl, Shelf.get?_insert, Shelf.get?_insert, h.bowls m hm] }

theorem setDish (h : f.AgreesOn s g) (n : UInt32) (c : Stack) :
    (f.setDish n c).AgreesOn s (g.setDish n c) :=
  { h with
    dishes := fun m hm => by
      rw [Frame.setDish, Frame.setDish, Shelf.get?_insert, Shelf.get?_insert, h.dishes m hm] }

theorem reachBowl (h : f.AgreesOn s g) (hn : s.bowls n) :
    (f.reachBowl n).AgreesOn s (g.reachBowl n) :=
  { h with
    bowls := fun m hm => by
      rw [Frame.reachBowl, Frame.reachBowl, Shelf.get?_insertNew, Shelf.get?_insertNew,
        h.bowls m hm, h.bowls n hn] }

theorem setValue (h : f.AgreesOn s g) (hx : s.ingredients x) (v : Value) :
    (f.setValue x v).AgreesOn s (g.setValue x v) := by
  unfold Frame.setValue
  rw [h.ingredients x hx]
  cases f.ingredients.get? x with
  | none => exact h
  | some b =>
    exact
      { h with
        ingredients := fun y hy => by
          rw [Shelf.get?_insert, Shelf.get?_insert, h.ingredients y hy] }

theorem jump (h : f.AgreesOn s g) (n : Nat) : (f.jump n).AgreesOn s (g.jump n) :=
  { h with ip := fun _ => rfl }

theorem advance (h : f.AgreesOn s g) : f.advance.AgreesOn s g.advance :=
  { h with ip := fun hs => congrArg (· + 1) (h.ip hs) }

end Frame.AgreesOn

/-! ## Attempts -/

/-- Whether two attempts come to the same and leave frames that agree. -/
structure Attempt.AgreesOn (s : Footprint) (a b : Attempt) : Prop where
  fault : b.fault = a.fault
  frame : a.frame.AgreesOn s b.frame

namespace Frame

variable {s : Footprint} {f g : Frame} {i : Instruction}

theorem agrees_lacking (h : f.AgreesOn s g) (what : Shortage) :
    (f.lacking what).AgreesOn s (g.lacking what) :=
  ⟨rfl, h⟩

theorem agrees_put (h : f.AgreesOn s g) (hn : s.bowls i.bowl) (hx : s.ingredients i.ingredient) :
    (f.put i).AgreesOn s (g.put i) := by
  have hreach := h.reachBowl hn
  unfold put
  simp only [hreach.ingredient hx, hreach.bowl hn]
  cases (f.reachBowl i.bowl).ingredient i.ingredient with
  | error what => exact agrees_lacking hreach what
  | ok b => exact ⟨rfl, hreach.setBowl _ _⟩

theorem agrees_fold (h : f.AgreesOn s g) (hn : s.bowls i.bowl) (hx : s.ingredients i.ingredient) :
    (f.fold i).AgreesOn s (g.fold i) := by
  unfold fold
  rw [h.ingredient hx, h.bowl hn]
  cases f.ingredient i.ingredient with
  | error what => exact agrees_lacking h what
  | ok b =>
    cases (f.bowl i.bowl).pop with
    | error what => exact agrees_lacking (h.reachBowl hn) what
    | ok popped => exact ⟨rfl, (h.setBowl _ _).setValue hx _⟩

theorem agrees_reckon (h : f.AgreesOn s g) (hn : s.bowls i.bowl) (hx : s.ingredients i.ingredient)
    (op : Int64 → Int64 → Except RunError.Cause Int64) :
    (f.reckon i op).AgreesOn s (g.reckon i op) := by
  unfold reckon
  rw [h.ingredient hx, h.bowl hn]
  cases f.ingredient i.ingredient with
  | error what => exact agrees_lacking h what
  | ok b =>
    cases (f.bowl i.bowl).pop with
    | error what => exact agrees_lacking (h.reachBowl hn) _
    | ok popped =>
      simp only
      cases op popped.1.number b.value.number with
      | error fault => exact ⟨rfl, h⟩
      | ok n => exact ⟨rfl, h.setBowl _ _⟩

theorem agrees_addDry (h : f.AgreesOn s g) (hn : s.bowls i.bowl)
    (htotal : g.dryTotal = f.dryTotal) : (f.addDry i).AgreesOn s (g.addDry i) := by
  unfold addDry
  rw [h.bowl hn, htotal]
  exact ⟨rfl, h.setBowl _ _⟩

theorem agrees_liquefy (h : f.AgreesOn s g) (hx : s.ingredients i.ingredient) :
    (f.liquefy i).AgreesOn s (g.liquefy i) := by
  unfold liquefy
  rw [h.ingredient hx]
  cases f.ingredient i.ingredient with
  | error what => exact agrees_lacking h what
  | ok b => exact ⟨rfl, h.setValue hx _⟩

theorem agrees_liquefyContents (h : f.AgreesOn s g) (hn : s.bowls i.bowl) :
    (f.liquefyContents i).AgreesOn s (g.liquefyContents i) := by
  unfold liquefyContents
  rw [h.bowl hn]
  exact ⟨rfl, h.setBowl _ _⟩

theorem agrees_stirBy (h : f.AgreesOn s g) (hn : s.bowls i.bowl) (depth : Nat) :
    (f.stirBy i depth).AgreesOn s (g.stirBy i depth) := by
  unfold stirBy
  rw [h.bowl hn]
  cases (f.bowl i.bowl).stir depth with
  | error what => exact agrees_lacking (h.reachBowl hn) what
  | ok c => exact ⟨rfl, h.setBowl _ _⟩

theorem agrees_stirIngredient (h : f.AgreesOn s g) (hn : s.bowls i.bowl)
    (hx : s.ingredients i.ingredient) : (f.stirIngredient i).AgreesOn s (g.stirIngredient i) := by
  unfold stirIngredient
  rw [h.ingredient hx]
  cases f.ingredient i.ingredient with
  | error what => exact agrees_lacking h what
  | ok b => exact agrees_stirBy h hn _

theorem agrees_pour (h : f.AgreesOn s g) {m n : UInt32} (hm : s.bowls m) (hn : s.dishes n) :
    (f.pour m n).AgreesOn s (g.pour m n) := by
  have hreach := h.reachBowl hm
  unfold pour
  simp only [hreach.bowl hm, hreach.dish hn]
  exact hreach.setDish _ _

end Frame

/-! ## Statements -/

/-- Whether two statements go on or do not, and leave the same kitchen and frames
that agree. -/
structure Turn.AgreesOn (s : Footprint) (t t' : Turn) : Prop where
  goesOn : t'.outcome = .goesOn ↔ t.outcome = .goesOn
  frame : t.frame.AgreesOn s t'.frame
  kitchen : t'.kitchen = t.kitchen

section

variable {s : Footprint} {p : Program} {limit depth depth' : UInt32} {fuel : Nat}
  {cook cook' : Cook} {i : Instruction} {f g : Frame} {k : Kitchen}

theorem agrees_goOn (h : f.AgreesOn s g) : (Turn.goOn f k).AgreesOn s (.goOn g k) :=
  ⟨Iff.rfl, h, rfl⟩

/-- The two may tell of different recipes. -/
theorem agrees_fail (h : f.AgreesOn s g) (cause : RunError.Cause) :
    (Turn.fail f k cause).AgreesOn s (.fail g k cause) :=
  ⟨by simp [Turn.fail], h, rfl⟩

theorem Attempt.AgreesOn.ofAttempt {a b : Attempt} (h : a.AgreesOn s b) :
    ((Trial.ofAttempt a k).caught i.location).AgreesOn s
      ((Trial.ofAttempt b k).caught i.location) := by
  rw [Trial.caught_ofAttempt, Trial.caught_ofAttempt, h.fault]
  cases a.fault with
  | none => exact agrees_goOn h.frame.advance
  | some fault => exact agrees_fail h.frame _

theorem agrees_takeStep (h : f.AgreesOn s g) (hx : s.ingredients i.ingredient) :
    ((takeStep i f k).caught i.location).AgreesOn s ((takeStep i g k).caught i.location) := by
  unfold takeStep
  rw [h.ingredient hx]
  cases f.ingredient i.ingredient with
  | error what => exact agrees_fail h _
  | ok b =>
    simp only
    cases k.refrigerator.take.1 with
    | some n => exact agrees_goOn (h.setValue hx _).advance
    | none => exact agrees_fail h _

theorem agrees_mixStep (h : f.AgreesOn s g) (hn : s.bowls i.bowl) :
    (mixStep fuel i f k).AgreesOn s (mixStep fuel i g k) := by
  unfold mixStep
  rw [h.bowl hn]
  cases (f.bowl i.bowl).shuffle fuel k.shuffler with
  | none => exact ⟨Iff.rfl, h, rfl⟩
  | some shuffled => exact agrees_goOn (h.setBowl _ _).advance

theorem agrees_loopStartStep (h : f.AgreesOn s g) (hx : s.ingredients i.ingredient) :
    ((loopStartStep i f k).caught i.location).AgreesOn s
      ((loopStartStep i g k).caught i.location) := by
  unfold loopStartStep
  rw [h.ingredient hx]
  cases f.ingredient i.ingredient with
  | error what => exact agrees_fail h _
  | ok b =>
    simp only
    split
    · exact agrees_goOn (h.jump _)
    · exact agrees_goOn h.advance

theorem agrees_loopEndStep (h : f.AgreesOn s g)
    (hx : i.ingredient ≠ [] → s.ingredients i.ingredient) :
    ((loopEndStep i f k).caught i.location).AgreesOn s
      ((loopEndStep i g k).caught i.location) := by
  unfold loopEndStep
  split
  · exact agrees_goOn (h.jump _)
  · next hnamed =>
    have hname := hx (by simpa using hnamed)
    rw [h.ingredient hname]
    cases f.ingredient i.ingredient with
    | error what => exact agrees_fail h _
    | ok b => exact agrees_goOn ((h.setValue hname _).jump _)

/-- A statement cannot tell frames apart that agree on what it works on.  Adding
dry ingredients up is the one that looks at all of them. -/
theorem agrees_step (h : f.AgreesOn s g) (hs : s.Covers i) (hwith : i.action ≠ .serveWith)
    (hstop : i.action ≠ .refrigerate) (hserve : i.action ≠ .serve)
    (htotal : i.action = .addDry → g.dryTotal = f.dryTotal) :
    (step p limit fuel cook depth i f k).AgreesOn s (step p limit fuel cook' depth' i g k) := by
  have hbowl := hs.bowl
  have hdish := hs.dish
  have hname : i.action.namesIngredient → i.action ≠ .loopEnd → s.ingredients i.ingredient :=
    fun hnames hend => hs.ingredient _ ⟨hnames, rfl, fun ha => absurd ha hend⟩
  unfold step tryStep
  cases ha : i.action <;> simp only [ha, Action.namesBowl, Action.namesDish,
    Action.namesIngredient, ne_eq, reduceCtorEq, not_false_eq_true, forall_const,
    Trial.caught_ok] at hbowl hdish hname ⊢
  case take => exact agrees_takeStep h hname
  case put => exact (Frame.agrees_put h hbowl hname).ofAttempt
  case fold => exact (Frame.agrees_fold h hbowl hname).ofAttempt
  case add | remove | combine | divide => exact (Frame.agrees_reckon h hbowl hname _).ofAttempt
  case addDry => exact (Frame.agrees_addDry h hbowl (htotal ha)).ofAttempt
  case liquefy => exact (Frame.agrees_liquefy h hname).ofAttempt
  case liquefyContents => exact (Frame.agrees_liquefyContents h hbowl).ofAttempt
  case stir => exact (Frame.agrees_stirBy h hbowl _).ofAttempt
  case stirIngredient => exact (Frame.agrees_stirIngredient h hbowl hname).ofAttempt
  case mix => exact agrees_mixStep h hbowl
  case clean => exact Attempt.AgreesOn.ofAttempt ⟨rfl, h.setBowl _ _⟩
  case pour => exact agrees_goOn (Frame.agrees_pour h hbowl hdish).advance
  case loopStart => exact agrees_loopStartStep h hname
  case loopEnd =>
    exact agrees_loopEndStep h fun hne =>
      hs.ingredient _ ⟨by rw [ha]; rfl, rfl, fun _ => hne⟩
  case setAside => exact agrees_goOn (h.jump _)
  case serveWith => exact absurd ha hwith
  case refrigerate => exact absurd ha hstop
  case serve => exact absurd ha hserve

end

/-! ## Recipes -/

/-- Whether two recipes come to their end or do not, and leave the same kitchen and
frames that agree. -/
structure Cooked.AgreesOn (s : Footprint) (c c' : Cooked) : Prop where
  done : c'.ending = .done ↔ c.ending = .done
  frame : c.frame.AgreesOn s c'.frame
  kitchen : c'.kitchen = c.kitchen

/-- Whether a statement neither asks for another recipe, nor serves or stops, nor
looks at all ingredients. -/
def Action.KeepsToItself (a : Action) : Prop :=
  a ∉ [Action.serveWith, .refrigerate, .serve, .addDry]

section

variable {s : Footprint} {p : Program} {limit depth depth' : UInt32} {fuel : Nat} {f g : Frame}
  {k : Kitchen}

/-- Frames that agree on what a method works on cannot be told apart by cooking
it. -/
theorem agrees_cookFrom (hplace : s.place) (h : f.AgreesOn s g)
    (hsame : g.recipe.instructions = f.recipe.instructions)
    (hcovers : ∀ i ∈ f.recipe.instructions, s.Covers i)
    (hkeeps : ∀ i ∈ f.recipe.instructions, i.action.KeepsToItself) :
    (cookFrom p limit fuel depth f k).AgreesOn s (cookFrom p limit fuel depth' g k) := by
  have hget (f g : Frame) (h : f.AgreesOn s g)
      (hsame : g.recipe.instructions = f.recipe.instructions) :
      g.recipe.instructions[g.ip]? = f.recipe.instructions[f.ip]? := by
    rw [hsame, h.ip hplace]
  have hturn (fuel : Nat) (f g : Frame) (k : Kitchen) (h : f.AgreesOn s g) (i : Instruction)
      (hcovers : s.Covers i) (hkeeps : i.action.KeepsToItself) :
      (p.turn limit fuel depth i f k).AgreesOn s (p.turn limit fuel depth' i g k) := by
    simp only [Action.KeepsToItself, List.mem_cons, List.not_mem_nil, or_false, not_or] at hkeeps
    exact agrees_step h hcovers hkeeps.1 hkeeps.2.1 hkeeps.2.2.1
      fun ha => absurd ha hkeeps.2.2.2
  induction fuel, f, k using cookFrom_induction p limit depth generalizing g with
  | starved f k => exact ⟨Iff.rfl, h, rfl⟩
  | finished fuel f k hi =>
    rw [cookFrom_of_none hi, cookFrom_of_none ((hget f g h hsame).trans hi)]
    exact ⟨Iff.rfl, h, rfl⟩
  | goesOn fuel f k i hi ho ih =>
    have hmem := List.mem_of_getElem? hi
    have ht := hturn fuel f g k h i (hcovers i hmem) (hkeeps i hmem)
    rw [cookFrom_of_goesOn hi ho,
      cookFrom_of_goesOn ((hget f g h hsame).trans hi) (ht.goesOn.2 ho), ht.kitchen]
    refine ih ht.frame ?_ ?_ ?_ <;> simp only [recipe_turn]
    · exact hsame
    · exact hcovers
    · exact hkeeps
  | ends fuel f k i e hi ho =>
    have hmem := List.mem_of_getElem? hi
    have ht := hturn fuel f g k h i (hcovers i hmem) (hkeeps i hmem)
    have hstops (e : Ending) (depth : UInt32) (f : Frame)
        (ho : (p.turn limit fuel depth i f k).outcome = .ends e) : e ≠ .done := by
      rintro rfl
      have ha : i.action = .refrigerate := mayEnd_step ho
      have hkeeps := hkeeps i hmem
      simp [Action.KeepsToItself, ha] at hkeeps
    cases ho' : (p.turn limit fuel depth' i g k).outcome with
    | goesOn =>
      rw [ht.goesOn.1 ho'] at ho
      cases ho
    | ends e' =>
      rw [cookFrom_of_ends hi ho, cookFrom_of_ends ((hget f g h hsame).trans hi) ho']
      exact ⟨iff_of_false (hstops e' depth' g ho') (hstops e depth f ho), ht.frame, ht.kitchen⟩

end

/-! ## Ingredients that are not written -/

/-- Whether a statement with this action gives the ingredient that it names another
value. -/
def Action.writesIngredient : Action → Bool
  | .take | .fold | .liquefy | .loopEnd => true
  | _ => false

/-- Whether a statement gives an ingredient another value. -/
def Instruction.Writes (i : Instruction) (x : Text) : Prop :=
  i.action.writesIngredient ∧ i.Uses x

namespace Frame

variable {f : Frame} {i : Instruction} {x : Text}

theorem ingredient_eq_ok_iff {b : Binding} :
    f.ingredient x = .ok b ↔ f.ingredients.get? x = some b := by
  unfold ingredient
  cases f.ingredients.get? x <;> simp

theorem get?_setValue_of_ne {name : Text} (v : Value) (h : name ≠ x) :
    (f.setValue name v).ingredients.get? x = f.ingredients.get? x := by
  unfold setValue
  cases f.ingredients.get? name with
  | none => rfl
  | some b => exact f.ingredients.get?_insert_of_ne _ h.symm

theorem ingredients_put : (f.put i).frame.ingredients = f.ingredients := by
  unfold put
  simp only
  cases (f.reachBowl i.bowl).ingredient i.ingredient <;> rfl

theorem get?_fold (h : i.ingredient ≠ x) :
    (f.fold i).frame.ingredients.get? x = f.ingredients.get? x := by
  unfold fold
  cases f.ingredient i.ingredient with
  | error what => rfl
  | ok b =>
    cases (f.bowl i.bowl).pop with
    | error what => rfl
    | ok popped => exact get?_setValue_of_ne _ h

theorem ingredients_reckon (op : Int64 → Int64 → Except RunError.Cause Int64) :
    (f.reckon i op).frame.ingredients = f.ingredients := by
  unfold reckon
  cases f.ingredient i.ingredient with
  | error what => rfl
  | ok b =>
    cases (f.bowl i.bowl).pop with
    | error what => rfl
    | ok popped =>
      simp only
      cases op popped.1.number b.value.number <;> rfl

theorem get?_liquefy (h : i.ingredient ≠ x) :
    (f.liquefy i).frame.ingredients.get? x = f.ingredients.get? x := by
  unfold liquefy
  cases f.ingredient i.ingredient with
  | error what => rfl
  | ok b => exact get?_setValue_of_ne _ h

theorem ingredients_stirBy (depth : Nat) :
    (f.stirBy i depth).frame.ingredients = f.ingredients := by
  unfold stirBy
  cases (f.bowl i.bowl).stir depth <;> rfl

theorem ingredients_stirIngredient : (f.stirIngredient i).frame.ingredients = f.ingredients := by
  unfold stirIngredient
  cases f.ingredient i.ingredient with
  | error what => rfl
  | ok b => exact ingredients_stirBy _

end Frame

section

variable {p : Program} {limit depth : UInt32} {fuel : Nat} {cook : Cook} {i : Instruction}
  {f : Frame} {k : Kitchen} {x : Text}

theorem ingredients_ofAttempt (a : Attempt) (place : Location) :
    ((Trial.ofAttempt a k).caught place).frame.ingredients = a.frame.ingredients := by
  rw [Trial.caught_ofAttempt]
  cases a.fault <;> rfl

theorem get?_takeStep (h : i.ingredient ≠ x) :
    ((takeStep i f k).caught i.location).frame.ingredients.get? x = f.ingredients.get? x := by
  unfold takeStep
  cases f.ingredient i.ingredient with
  | error what => rfl
  | ok b =>
    simp only
    cases k.refrigerator.take.1 with
    | some n => exact Frame.get?_setValue_of_ne _ h
    | none => rfl

theorem ingredients_mixStep : (mixStep fuel i f k).frame.ingredients = f.ingredients := by
  unfold mixStep
  cases (f.bowl i.bowl).shuffle fuel k.shuffler <;> rfl

theorem ingredients_loopStartStep :
    ((loopStartStep i f k).caught i.location).frame.ingredients = f.ingredients := by
  unfold loopStartStep
  cases f.ingredient i.ingredient with
  | error what => rfl
  | ok b =>
    simp only [Turn.goOn]
    split <;> rfl

theorem get?_loopEndStep (h : i.ingredient ≠ [] → i.ingredient ≠ x) :
    ((loopEndStep i f k).caught i.location).frame.ingredients.get? x = f.ingredients.get? x := by
  unfold loopEndStep
  split
  · rfl
  · next hnamed =>
    cases f.ingredient i.ingredient with
    | error what => rfl
    | ok b => exact Frame.get?_setValue_of_ne _ (h (by simpa using hnamed))

theorem ingredients_serveStep {count : Int64} {next : Frame → Kitchen → Turn}
    (hnext : ∀ f k, (next f k).frame.ingredients = f.ingredients) :
    (serveStep count f k next).frame.ingredients = f.ingredients := by
  unfold serveStep
  simp only
  cases (Served.firstDishes f.dishes k.served count).refused with
  | some n => rfl
  | none => exact hnext _ _

theorem ingredients_refrigerateStep :
    (refrigerateStep depth i f k).frame.ingredients = f.ingredients := by
  unfold refrigerateStep
  cases i.count with
  | none => rfl
  | some count =>
    simp only
    split
    · exact ingredients_serveStep fun _ _ => rfl
    · rfl

theorem ingredients_serveWithStep :
    (serveWithStep p limit cook depth i f k).frame.ingredients = f.ingredients := by
  unfold serveWithStep
  cases p.find? i.name with
  | none => rfl
  | some recipe =>
    simp only
    split
    · rfl
    · split <;> rfl

/-- An ingredient that a statement does not write stays as it is, also if the
statement fails. -/
theorem get?_ingredients_step (h : ¬ i.Writes x) :
    (step p limit fuel cook depth i f k).frame.ingredients.get? x = f.ingredients.get? x := by
  have hother (hwrites : i.action.writesIngredient) (hnames : i.action.namesIngredient)
      (hend : i.action ≠ .loopEnd) : i.ingredient ≠ x :=
    fun hx => h ⟨hwrites, hnames, hx, fun ha => absurd ha hend⟩
  unfold step tryStep
  cases ha : i.action <;> simp only [ingredients_ofAttempt, Trial.caught_ok]
  case take => exact get?_takeStep (hother (by rw [ha]; rfl) (by rw [ha]; rfl) (by simp [ha]))
  case put => rw [Frame.ingredients_put]
  case fold => exact Frame.get?_fold (hother (by rw [ha]; rfl) (by rw [ha]; rfl) (by simp [ha]))
  case add | remove | combine | divide => rw [Frame.ingredients_reckon]
  case addDry | liquefyContents | clean | pour | setAside => rfl
  case liquefy =>
    exact Frame.get?_liquefy (hother (by rw [ha]; rfl) (by rw [ha]; rfl) (by simp [ha]))
  case stir => rw [Frame.stir, Frame.ingredients_stirBy]
  case stirIngredient => rw [Frame.ingredients_stirIngredient]
  case mix => rw [ingredients_mixStep]
  case loopStart => rw [ingredients_loopStartStep]
  case loopEnd =>
    refine get?_loopEndStep fun hne hx => h ⟨by rw [ha]; rfl, by rw [ha]; rfl, hx, fun _ => ?_⟩
    exact hx ▸ hne
  case serveWith => rw [ingredients_serveWithStep]
  case refrigerate => rw [ingredients_refrigerateStep]
  case serve =>
    split
    · rw [ingredients_serveStep fun _ _ => rfl]
    · rfl

/-- However long a recipe is cooked, and however it ends, an ingredient that none of
its statements writes stays as it is. -/
theorem get?_ingredients_cookFrom (h : ∀ i ∈ f.recipe.instructions, ¬ i.Writes x) :
    (cookFrom p limit fuel depth f k).frame.ingredients.get? x = f.ingredients.get? x := by
  induction fuel, f, k using cookFrom_induction p limit depth with
  | starved f k => rfl
  | finished fuel f k hi => rw [cookFrom_of_none hi]
  | goesOn fuel f k i hi ho ih =>
    rw [cookFrom_of_goesOn hi ho, ih (by rwa [recipe_turn])]
    exact get?_ingredients_step (h i (List.mem_of_getElem? hi))
  | ends fuel f k i e hi ho =>
    rw [cookFrom_of_ends hi ho]
    exact get?_ingredients_step (h i (List.mem_of_getElem? hi))

end

end Cookbook
