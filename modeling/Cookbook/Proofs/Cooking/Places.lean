import Cookbook.Proofs.Cooking.Fuel
import Cookbook.Proofs.Loops.Concatenation

/-!
# Cookbook.Proofs.Cooking.Places

Where a statement stands matters to jumps only, and the recipe it stands in
matters to no statement, but for the name that an error tells.  A statement that
is no jump does the same at any place of any recipe with that name, and then
comes to the statement behind it (`step_moved`).

* It does the same at any place of its own recipe (`turn_jump`).
* No statement puts another recipe in place of the one that is cooked
  (`recipe_turn`).
* A jump, too, does the same further on in any recipe of that name, if its target
  is moved on as well (`step_shifted`), or at its own place (`step_withRecipe`).
-/

namespace Cookbook

/-! ## Frames -/

namespace Frame

/-- The same state in another recipe, at another place. -/
def moved (f : Frame) (r : Recipe) (n : Nat) : Frame := { f with recipe := r, ip := n }

/-- The same state of another recipe. -/
def withRecipe (f : Frame) (r : Recipe) : Frame := { f with recipe := r }

variable (f : Frame) (r : Recipe) (n : Nat)

@[simp] theorem recipe_jump : (f.jump n).recipe = f.recipe := rfl

@[simp] theorem ip_jump : (f.jump n).ip = n := rfl

@[simp] theorem ingredients_jump : (f.jump n).ingredients = f.ingredients := rfl

@[simp] theorem jump_jump (m : Nat) : (f.jump n).jump m = f.jump m := rfl

@[simp] theorem jump_advance (m : Nat) : f.advance.jump m = f.jump m := rfl

@[simp] theorem advance_jump : (f.jump n).advance = f.jump (n + 1) := rfl

@[simp] theorem ingredient_jump (name : Text) :
    (f.jump n).ingredient name = f.ingredient name := rfl

@[simp] theorem bowls_moved : (f.moved r n).bowls = f.bowls := rfl

@[simp] theorem dishes_moved : (f.moved r n).dishes = f.dishes := rfl

@[simp] theorem ingredient_moved (name : Text) :
    (f.moved r n).ingredient name = f.ingredient name := rfl

@[simp] theorem bowl_moved (b : UInt32) : (f.moved r n).bowl b = f.bowl b := rfl

@[simp] theorem reachBowl_moved (b : UInt32) :
    (f.moved r n).reachBowl b = (f.reachBowl b).moved r n := rfl

@[simp] theorem setBowl_moved (b : UInt32) (s : Stack) :
    (f.moved r n).setBowl b s = (f.setBowl b s).moved r n := rfl

@[simp] theorem setValue_moved (name : Text) (v : Value) :
    (f.moved r n).setValue name v = (f.setValue name v).moved r n := by
  unfold setValue moved
  cases f.ingredients.get? name <;> rfl

@[simp] theorem setValue_jump (name : Text) (v : Value) :
    (f.jump n).setValue name v = (f.setValue name v).jump n := by
  unfold setValue
  rw [ingredients_jump]
  cases f.ingredients.get? name <;> rfl

@[simp] theorem recipe_setValue (name : Text) (v : Value) :
    (f.setValue name v).recipe = f.recipe := by
  unfold setValue
  cases f.ingredients.get? name <;> rfl

end Frame

/-! ## Attempts -/

/-- The same attempt in another recipe, at another place. -/
def Attempt.moved (a : Attempt) (r : Recipe) (n : Nat) : Attempt :=
  { a with frame := a.frame.moved r n }

/-- Whether a way to try a statement looks neither at the recipe nor at the
place. -/
def Portable (work : Frame → Attempt) : Prop :=
  ∀ f r n, work (f.moved r n) = (work f).moved r n

theorem Portable.recipe {work : Frame → Attempt} (h : Portable work) (f : Frame) :
    (work f).frame.recipe = f.recipe := by
  have hself : work f = (work f).moved f.recipe f.ip := h f f.recipe f.ip
  rw [hself]
  rfl

namespace Frame

variable (i : Instruction)

theorem portable_put : Portable (·.put i) := by
  intro f r n
  simp only [put, reachBowl_moved, ingredient_moved]
  cases (f.reachBowl i.bowl).ingredient i.ingredient <;> rfl

theorem portable_fold : Portable (·.fold i) := by
  intro f r n
  simp only [fold, ingredient_moved, bowl_moved]
  cases f.ingredient i.ingredient with
  | error what => rfl
  | ok b =>
    cases (f.bowl i.bowl).pop with
    | error what => rfl
    | ok popped => simp only [setBowl_moved, setValue_moved, Attempt.moved]

theorem portable_reckon (op : Int64 → Int64 → Except RunError.Cause Int64) :
    Portable (·.reckon i op) := by
  intro f r n
  simp only [reckon, ingredient_moved, bowl_moved]
  cases f.ingredient i.ingredient with
  | error what => rfl
  | ok b =>
    cases (f.bowl i.bowl).pop with
    | error what => rfl
    | ok popped =>
      simp only
      cases op popped.1.number b.value.number <;> rfl

theorem portable_liquefy : Portable (·.liquefy i) := by
  intro f r n
  simp only [liquefy, ingredient_moved]
  cases f.ingredient i.ingredient with
  | error what => rfl
  | ok b => simp only [setValue_moved, Attempt.moved]

theorem portable_stirBy (depth : Nat) : Portable (·.stirBy i depth) := by
  intro f r n
  simp only [stirBy, bowl_moved]
  cases (f.bowl i.bowl).stir depth <;> rfl

theorem portable_stirIngredient : Portable (·.stirIngredient i) := by
  intro f r n
  simp only [stirIngredient, ingredient_moved]
  cases f.ingredient i.ingredient with
  | error what => rfl
  | ok b => exact portable_stirBy i _ f r n

end Frame

/-! ## Statements that are no jumps -/

/-- The same turn of a statement in another recipe, at place `n`. -/
def Turn.moved (t : Turn) (r : Recipe) (n : Nat) : Turn :=
  { t with frame := t.frame.moved r (if t.outcome = .goesOn then n + 1 else n) }

/-- The same turn of a statement at place `n`. -/
def Turn.place (t : Turn) (n : Nat) : Turn :=
  { t with frame := t.frame.jump (if t.outcome = .goesOn then n + 1 else n) }

section

variable {p : Program} {limit depth : UInt32} {fuel n : Nat} {cook : Cook} {i : Instruction}
  {f : Frame} {k : Kitchen} {r : Recipe}

theorem fail_moved {cause : RunError.Cause} (hname : r.name = f.recipe.name) :
    Turn.fail (f.moved r n) k cause = (Turn.fail f k cause).moved r n := by
  unfold Turn.fail
  rw [← hname]
  rfl

theorem Portable.ofAttempt_moved {work : Frame → Attempt} (h : Portable work)
    (hname : r.name = f.recipe.name) :
    (Trial.ofAttempt (work (f.moved r n)) k).caught i.location =
      ((Trial.ofAttempt (work f) k).caught i.location).moved r n := by
  have hwork : r.name = (work f).frame.recipe.name := by rw [hname, h.recipe]
  rw [h f r n, Trial.caught_ofAttempt, Trial.caught_ofAttempt, Attempt.moved]
  cases (work f).fault with
  | none => rfl
  | some fault => exact fail_moved hwork

theorem takeStep_moved (hname : r.name = f.recipe.name) :
    (takeStep i (f.moved r n) k).caught i.location =
      ((takeStep i f k).caught i.location).moved r n := by
  unfold takeStep
  simp only [Frame.ingredient_moved]
  cases f.ingredient i.ingredient with
  | error what => exact fail_moved hname
  | ok b =>
    simp only [Frame.setValue_moved]
    cases k.refrigerator.take.1 with
    | none => exact fail_moved hname
    | some number => rfl

theorem mixStep_moved : mixStep fuel i (f.moved r n) k = (mixStep fuel i f k).moved r n := by
  unfold mixStep
  simp only [Frame.bowl_moved]
  cases (f.bowl i.bowl).shuffle fuel k.shuffler <;> rfl

theorem serveStep_moved {count : Int64} {next : Frame → Kitchen → Turn}
    (hname : r.name = f.recipe.name)
    (hnext : ∀ f k, next (f.moved r n) k = (next f k).moved r n) :
    serveStep count (f.moved r n) k next = (serveStep count f k next).moved r n := by
  unfold serveStep
  simp only [Frame.dishes_moved]
  cases (Served.firstDishes f.dishes k.served count).refused with
  | some refused => exact fail_moved (f := { f with dishes := _ }) hname
  | none => exact hnext { f with dishes := _ } _

theorem refrigerateStep_moved (hname : r.name = f.recipe.name) :
    refrigerateStep depth i (f.moved r n) k = (refrigerateStep depth i f k).moved r n := by
  unfold refrigerateStep
  cases i.count with
  | none => rfl
  | some count =>
    by_cases hdepth : depth = 0
    · simp only [if_pos hdepth]
      exact serveStep_moved hname fun _ _ => rfl
    · simp only [if_neg hdepth]
      rfl

theorem serveWithStep_moved (hname : r.name = f.recipe.name) :
    serveWithStep p limit cook depth i (f.moved r n) k =
      (serveWithStep p limit cook depth i f k).moved r n := by
  unfold serveWithStep
  cases p.find? i.name with
  | none => exact fail_moved hname
  | some recipe =>
    by_cases hdeep : limit ≠ 0 ∧ depth + 1 > limit
    · simp only [if_pos hdeep]
      exact fail_moved hname
    · simp only [if_neg hdeep, Frame.bowls_moved]
      cases (cook (depth + 1) { Frame.ofRecipe recipe with bowls := f.bowls } k).ending <;> rfl

/-- A statement that is no jump does the same at any place of any recipe with the
same name. -/
theorem step_moved (h : ¬ Loops.IsTargeted i.action) (hname : r.name = f.recipe.name) :
    step p limit fuel cook depth i (f.moved r n) k =
      (step p limit fuel cook depth i f k).moved r n := by
  unfold step tryStep
  cases ha : i.action <;> simp only [Trial.caught_ok]
  case take => exact takeStep_moved hname
  case put => exact (Frame.portable_put i).ofAttempt_moved hname
  case fold => exact (Frame.portable_fold i).ofAttempt_moved hname
  case add | remove | combine | divide => exact (Frame.portable_reckon i _).ofAttempt_moved hname
  case addDry | liquefyContents | clean => rfl
  case liquefy => exact (Frame.portable_liquefy i).ofAttempt_moved hname
  case stir => exact (Frame.portable_stirBy i _).ofAttempt_moved hname
  case stirIngredient => exact (Frame.portable_stirIngredient i).ofAttempt_moved hname
  case mix => exact mixStep_moved
  case pour => rfl
  case serveWith => exact serveWithStep_moved hname
  case refrigerate => exact refrigerateStep_moved hname
  case serve =>
    by_cases hdepth : depth = 0
    · simp only [if_pos hdepth]
      exact serveStep_moved hname fun _ _ => rfl
    · simp only [if_neg hdepth]
      rfl
  case loopStart | loopEnd | setAside => simp [Loops.IsTargeted, ha] at h

/-- A statement that is no jump keeps to its recipe and comes to the statement
behind it, if any. -/
theorem step_eq_moved (h : ¬ Loops.IsTargeted i.action) :
    step p limit fuel cook depth i f k =
      (step p limit fuel cook depth i f k).moved f.recipe f.ip :=
  step_moved h rfl

/-- A statement that is no jump does the same wherever it stands. -/
theorem turn_jump (h : ¬ Loops.IsTargeted i.action) :
    p.turn limit fuel depth i (f.jump n) k = (p.turn limit fuel depth i f k).place n := by
  have hmoved : p.turn limit fuel depth i (f.jump n) k =
      (p.turn limit fuel depth i f k).moved f.recipe n := step_moved h rfl
  have hself : p.turn limit fuel depth i f k =
      (p.turn limit fuel depth i f k).moved f.recipe f.ip := step_eq_moved h
  rw [hmoved, hself]
  rfl

end

/-! ## Jumps -/

/-- The same state of another recipe, `n` statements further on. -/
def Frame.shifted (f : Frame) (r : Recipe) (n : Nat) : Frame := f.moved r (f.ip + n)

/-- The same turn in another recipe, `n` statements further on. -/
def Turn.shifted (t : Turn) (r : Recipe) (n : Nat) : Turn :=
  { t with frame := t.frame.shifted r n }

/-- The same turn in another recipe. -/
def Turn.withRecipe (t : Turn) (r : Recipe) : Turn := { t with frame := t.frame.withRecipe r }

/-- The same ending of another recipe, `n` statements further on. -/
def Cooked.shifted (c : Cooked) (r : Recipe) (n : Nat) : Cooked :=
  { c with frame := c.frame.shifted r n }

/-- The same ending of another recipe. -/
def Cooked.withRecipe (c : Cooked) (r : Recipe) : Cooked :=
  { c with frame := c.frame.withRecipe r }

/-- A turn that is shifted is a turn at a place further on. -/
theorem Turn.shifted_moved (t : Turn) (r r' : Recipe) (m n : Nat) :
    (t.moved r m).shifted r' n = t.moved r' (m + n) := by
  unfold Turn.shifted Turn.moved Frame.shifted Frame.moved
  split
  · simp only [Nat.add_right_comm]
  · rfl

section

variable {p : Program} {limit depth : UInt32} {fuel n : Nat} {cook : Cook} {i : Instruction}
  {f : Frame} {k : Kitchen} {r : Recipe}

theorem fail_shifted {cause : RunError.Cause} (hname : r.name = f.recipe.name) :
    Turn.fail (f.shifted r n) k cause = (Turn.fail f k cause).shifted r n := by
  unfold Turn.fail
  rw [← hname]
  rfl

theorem loopStartStep_shifted (hname : r.name = f.recipe.name) :
    (loopStartStep { i with target := i.target + n } (f.shifted r n) k).caught i.location =
      ((loopStartStep i f k).caught i.location).shifted r n := by
  have hingredient : (f.shifted r n).ingredient i.ingredient = f.ingredient i.ingredient := rfl
  have hadvance : (f.shifted r n).advance = f.advance.shifted r n := by
    simp only [Frame.shifted, Frame.moved, Frame.advance, Nat.add_right_comm]
  have hjump : (f.shifted r n).jump (i.target + n + 1) = (f.jump (i.target + 1)).shifted r n := by
    simp only [Frame.shifted, Frame.moved, Frame.jump, Nat.add_right_comm]
  unfold loopStartStep
  rw [hingredient]
  cases f.ingredient i.ingredient with
  | error what => exact fail_shifted hname
  | ok b =>
    simp only [hadvance, hjump]
    split <;> rfl

theorem loopEndStep_shifted (hname : r.name = f.recipe.name) :
    (loopEndStep { i with target := i.target + n } (f.shifted r n) k).caught i.location =
      ((loopEndStep i f k).caught i.location).shifted r n := by
  have hingredient : (f.shifted r n).ingredient i.ingredient = f.ingredient i.ingredient := rfl
  unfold loopEndStep
  rw [hingredient]
  split
  · rfl
  · cases f.ingredient i.ingredient with
    | error what => exact fail_shifted hname
    | ok b =>
      simp only [Frame.shifted, Frame.setValue_moved]
      rfl

/-- A statement does the same further on in another recipe of the same name, if
its target is moved on as well. -/
theorem step_shifted (hname : r.name = f.recipe.name) :
    step p limit fuel cook depth (i.retarget n) (f.shifted r n) k =
      (step p limit fuel cook depth i f k).shifted r n := by
  by_cases hjump : Loops.IsTargeted i.action
  · rw [Instruction.retarget_of_targeted hjump]
    unfold step tryStep
    rcases hjump with ha | ha | ha <;> simp only [ha, Trial.caught_ok]
    · exact loopStartStep_shifted hname
    · exact loopEndStep_shifted hname
    · simp only [Turn.goOn, Turn.shifted, Frame.shifted, Frame.moved, Frame.jump,
        Nat.add_right_comm]
  · have hmoved : step p limit fuel cook depth i (f.shifted r n) k =
        (step p limit fuel cook depth i f k).moved r (f.ip + n) := step_moved hjump hname
    rw [Instruction.retarget_of_not_targeted hjump, hmoved, step_eq_moved hjump,
      Turn.shifted_moved]
    rfl

/-- A statement does the same in every recipe with the same name. -/
theorem step_withRecipe (hname : r.name = f.recipe.name) :
    step p limit fuel cook depth i (f.withRecipe r) k =
      (step p limit fuel cook depth i f k).withRecipe r := by
  have hshifted : step p limit fuel cook depth (i.retarget 0) (f.shifted r 0) k =
      (step p limit fuel cook depth i f k).shifted r 0 := step_shifted hname
  rw [Instruction.retarget_zero] at hshifted
  exact hshifted

/-- The recipe that is cooked stays the same. -/
theorem recipe_turn : (p.turn limit fuel depth i f k).frame.recipe = f.recipe := by
  have hself : p.turn limit fuel depth i f k =
      (p.turn limit fuel depth i f k).withRecipe f.recipe := step_withRecipe rfl
  rw [hself]
  rfl

end

end Cookbook
