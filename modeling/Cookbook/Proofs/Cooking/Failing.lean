import Cookbook.Proofs.Cooking.Moves
import Cookbook.Proofs.Cooking.ServingWith

/-!
# Cookbook.Proofs.Cooking.Failing

What a statement may change, and what is left of the kitchen when it fails.

* A statement that succeeds works on what it names and on nothing else
  (`Frame.Confined`): no other bowl, dish or ingredient changes, and the kind of
  an ingredient never does.
* A statement that fails leaves the frame as it was, but for an empty bowl that
  it may have reached for (`Frame.Intact`).
* What it complains about is so (`Instruction.Warrants`).

The three are shown together, statement by statement (`careful_step`), and
carried to the whole recipe by its last move (`failure_leaves_intact`).  Serving
dishes is the exception: what was served is gone.
-/

namespace Cookbook

/-! ## What a statement names -/

namespace Action

/-- Whether a statement with this action names a bowl. -/
def namesBowl : Action → Bool
  | put | fold | add | remove | combine | divide | addDry | liquefyContents | stir
  | stirIngredient | mix | clean | pour => true
  | _ => false

/-- Whether a statement with this action names a dish. -/
def namesDish : Action → Bool
  | pour => true
  | _ => false

/-- Whether a statement with this action names an ingredient; the end of a loop
may. -/
def namesIngredient : Action → Bool
  | take | put | fold | add | remove | combine | divide | liquefy | stirIngredient | loopStart
  | loopEnd => true
  | _ => false

end Action

/-- Whether a frame differs from another in nothing but the bowl and the dish
that a statement names, the value of the ingredient that it names, and the
statement to come to. -/
structure Frame.Confined (f : Frame) (i : Instruction) (f' : Frame) : Prop where
  recipe : f'.recipe = f.recipe
  bowls : ∀ n, (i.action.namesBowl → n ≠ i.bowl) → f'.bowls.get? n = f.bowls.get? n
  dishes : ∀ n, (i.action.namesDish → n ≠ i.dish) → f'.dishes.get? n = f.dishes.get? n
  ingredients : ∀ name, (i.action.namesIngredient → name ≠ i.ingredient) →
    f'.ingredients.get? name = f.ingredients.get? name
  kinds : ∀ name,
    (f'.ingredients.get? name).map Binding.kind = (f.ingredients.get? name).map Binding.kind

/-- Whether a frame is another one, but for an empty bowl with the given number
where the other has none. -/
def Frame.Intact (f : Frame) (n : UInt32) (f' : Frame) : Prop :=
  f' = f ∨ f.bowls.get? n = none ∧ f' = { f with bowls := f.bowls.insert n .empty }

/-- Whether what a statement complains about is so. -/
def Instruction.Warrants (i : Instruction) (p : Program) (f : Frame) : RunError.Cause → Prop
  | .noMainRecipe => False
  | .noSuchRecipe name => i.action = .serveWith ∧ name = i.name ∧ p.find? name = none
  | .tooDeep => i.action = .serveWith
  | .lacking place (.unknownIngredient name) =>
    place = i.location ∧ name = i.ingredient ∧ f.ingredients.get? name = none
  | .lacking place .nothingToTake => place = i.location ∧ f.bowl i.bowl = .empty
  | .lacking place .nothingOnTop => place = i.location ∧ f.bowl i.bowl = .empty
  | .divisionByZero place name => i.action = .divide ∧ place = i.location ∧ name = i.ingredient
  | .divisionOverflow place => i.action = .divide ∧ place = i.location
  | .noCharacter _ => i.action = .serve ∨ i.action = .refrigerate
  | .nothingLeft => i.action = .take
  | .notANumber => i.action = .take

/-! ## Changes to a frame -/

namespace Frame

section

variable {f f' f'' : Frame} {i : Instruction}

theorem Confined.refl : f.Confined i f :=
  ⟨rfl, fun _ _ => rfl, fun _ _ => rfl, fun _ _ => rfl, fun _ => rfl⟩

theorem Confined.trans (h : f.Confined i f') (h' : f'.Confined i f'') : f.Confined i f'' where
  recipe := h'.recipe.trans h.recipe
  bowls n hn := (h'.bowls n hn).trans (h.bowls n hn)
  dishes n hn := (h'.dishes n hn).trans (h.dishes n hn)
  ingredients name hname := (h'.ingredients name hname).trans (h.ingredients name hname)
  kinds name := (h'.kinds name).trans (h.kinds name)

theorem Confined.jump (h : f.Confined i f') (n : Nat) : f.Confined i (f'.jump n) :=
  ⟨h.recipe, h.bowls, h.dishes, h.ingredients, h.kinds⟩

theorem Confined.advance (h : f.Confined i f') : f.Confined i f'.advance := h.jump (f'.ip + 1)

theorem confined_setBowl (h : i.action.namesBowl) (s : Stack) :
    f.Confined i (f.setBowl i.bowl s) :=
  { Confined.refl with bowls := fun _ hn => f.bowls.get?_insert_of_ne s (hn h) }

theorem confined_reachBowl (h : i.action.namesBowl) : f.Confined i (f.reachBowl i.bowl) := by
  refine { Confined.refl with bowls := fun n hn => ?_ }
  rw [reachBowl, Shelf.get?_insertNew, if_neg]
  exact fun hsame => hn h hsame.1

theorem confined_setDish (h : i.action.namesDish) (s : Stack) :
    f.Confined i (f.setDish i.dish s) :=
  { Confined.refl with dishes := fun _ hn => f.dishes.get?_insert_of_ne s (hn h) }

theorem confined_setValue (h : i.action.namesIngredient) (v : Value) :
    f.Confined i (f.setValue i.ingredient v) := by
  unfold setValue
  cases hb : f.ingredients.get? i.ingredient with
  | none => exact .refl
  | some b =>
    refine { Confined.refl with ingredients := fun name hname => ?_, kinds := fun name => ?_ }
    · exact f.ingredients.get?_insert_of_ne _ (hname h)
    · simp only [Shelf.get?_insert]
      split
      · next hname => rw [hname, hb, Option.map_some, Option.map_some]
      · rfl

theorem Intact.recipe {n : UInt32} (h : f.Intact n f') : f'.recipe = f.recipe := by
  rcases h with rfl | ⟨-, rfl⟩ <;> rfl

theorem Intact.ip {n : UInt32} (h : f.Intact n f') : f'.ip = f.ip := by
  rcases h with rfl | ⟨-, rfl⟩ <;> rfl

theorem intact_reachBowl (f : Frame) (n : UInt32) : f.Intact n (f.reachBowl n) := by
  unfold reachBowl Shelf.insertNew Shelf.contains
  cases hn : f.bowls.get? n with
  | some s => exact .inl rfl
  | none => exact .inr ⟨hn, rfl⟩

theorem ingredient_eq_error {name : Text} {what : Shortage}
    (h : f.ingredient name = .error what) :
    what = .unknownIngredient name ∧ f.ingredients.get? name = none := by
  unfold ingredient at h
  cases hb : f.ingredients.get? name with
  | some b => simp [hb] at h
  | none => simpa [hb, eq_comm] using h

end

end Frame

theorem Stack.pop_eq_error {s : Stack} {what : Shortage} (h : s.pop = .error what) :
    what = .nothingToTake ∧ s = .empty := by
  obtain ⟨_ | ⟨v, rest⟩⟩ := s
  · exact ⟨(Except.error.inj h).symm, rfl⟩
  · cases h

theorem Stack.stir_eq_error {s : Stack} {depth : Nat} {what : Shortage}
    (h : s.stir depth = .error what) : what = .nothingToTake ∧ s = .empty := by
  obtain ⟨_ | ⟨v, rest⟩⟩ := s
  · exact ⟨(Except.error.inj h).symm, rfl⟩
  · cases h

/-! ## Attempts -/

/-- Whether an attempt changes no more than it should, and fails for a reason. -/
structure Attempt.Careful (a : Attempt) (p : Program) (f : Frame) (i : Instruction) : Prop where
  confined : a.fault = none → f.Confined i a.frame
  faulty : ∀ fault, a.fault = some fault →
    f.Intact i.bowl a.frame ∧ i.Warrants p f (fault.cause i.location)

namespace Frame

variable {p : Program} {f f' : Frame} {i : Instruction}

theorem careful_of_confined (h : f.Confined i f') : Attempt.Careful { frame := f' } p f i :=
  ⟨fun _ => h, fun _ hcause => by cases hcause⟩

theorem careful_of_fault {fault : Fault} (h : f.Intact i.bowl f')
    (hcause : i.Warrants p f (fault.cause i.location)) :
    Attempt.Careful { frame := f', fault := some fault } p f i := by
  constructor
  · intro hnone
    cases hnone
  · intro fault' hsome
    cases hsome
    exact ⟨h, hcause⟩

/-- A statement that asks for an ingredient that is not declared. -/
theorem careful_lacking_ingredient {what : Shortage} (h : f.Intact i.bowl f')
    (hwhat : f.ingredient i.ingredient = .error what) : (f'.lacking what).Careful p f i := by
  obtain ⟨rfl, hnone⟩ := ingredient_eq_error hwhat
  exact careful_of_fault h ⟨rfl, rfl, hnone⟩

theorem careful_put (ha : i.action = .put) : (f.put i).Careful p f i := by
  have hbowl : i.action.namesBowl := by rw [ha]; rfl
  unfold put
  simp only
  cases hx : (f.reachBowl i.bowl).ingredient i.ingredient with
  | error what => exact careful_lacking_ingredient (f.intact_reachBowl i.bowl) hx
  | ok b =>
    exact careful_of_confined ((confined_reachBowl hbowl).trans (confined_setBowl hbowl _))

-- the bowl is reached for before it is seen that there is no salt
example : ((Frame.ofRecipe { name := "Soup" }).put
    { action := .put, ingredient := "salt", bowl := 7 }).frame.bowls.entries = [(7, .empty)] := by
  decide

theorem careful_fold (ha : i.action = .fold) : (f.fold i).Careful p f i := by
  have hbowl : i.action.namesBowl := by rw [ha]; rfl
  have hingredient : i.action.namesIngredient := by rw [ha]; rfl
  unfold fold
  cases hx : f.ingredient i.ingredient with
  | error what => exact careful_lacking_ingredient (.inl rfl) hx
  | ok b =>
    cases hpop : (f.bowl i.bowl).pop with
    | error what =>
      obtain ⟨rfl, hempty⟩ := Stack.pop_eq_error hpop
      exact careful_of_fault (f.intact_reachBowl i.bowl) ⟨rfl, hempty⟩
    | ok popped =>
      exact careful_of_confined
        ((confined_setBowl hbowl popped.2).trans (confined_setValue hingredient popped.1))

/-- Reckoning touches the bowl only once there is a result. -/
theorem careful_reckon {op : Int64 → Int64 → Except RunError.Cause Int64}
    (hbowl : i.action.namesBowl)
    (hop : ∀ a b cause, op a b = .error cause → i.Warrants p f cause) :
    (f.reckon i op).Careful p f i := by
  unfold reckon
  cases hx : f.ingredient i.ingredient with
  | error what => exact careful_lacking_ingredient (.inl rfl) hx
  | ok b =>
    cases hpop : (f.bowl i.bowl).pop with
    | error what =>
      obtain ⟨-, hempty⟩ := Stack.pop_eq_error hpop
      exact careful_of_fault (f.intact_reachBowl i.bowl) ⟨rfl, hempty⟩
    | ok popped =>
      simp only
      cases hresult : op popped.1.number b.value.number with
      | error cause => exact careful_of_fault (.inl rfl) (hop _ _ _ hresult)
      | ok n => exact careful_of_confined (confined_setBowl hbowl _)

theorem warrants_of_quotient {a b : Int64} {cause : RunError.Cause} (ha : i.action = .divide)
    (h : quotient i a b = .error cause) : i.Warrants p f cause := by
  unfold quotient at h
  split at h
  · cases h
    exact ⟨ha, rfl, rfl⟩
  · split at h
    · cases h
      exact ⟨ha, rfl⟩
    · cases h

theorem careful_liquefy (ha : i.action = .liquefy) : (f.liquefy i).Careful p f i := by
  unfold liquefy
  cases hx : f.ingredient i.ingredient with
  | error what => exact careful_lacking_ingredient (.inl rfl) hx
  | ok b => exact careful_of_confined (confined_setValue (by rw [ha]; rfl) _)

theorem careful_stirBy (hbowl : i.action.namesBowl) (depth : Nat) :
    (f.stirBy i depth).Careful p f i := by
  unfold stirBy
  cases hstir : (f.bowl i.bowl).stir depth with
  | error what =>
    obtain ⟨rfl, hempty⟩ := Stack.stir_eq_error hstir
    exact careful_of_fault (f.intact_reachBowl i.bowl) ⟨rfl, hempty⟩
  | ok s => exact careful_of_confined (confined_setBowl hbowl s)

theorem careful_stirIngredient (ha : i.action = .stirIngredient) :
    (f.stirIngredient i).Careful p f i := by
  unfold stirIngredient
  cases hx : f.ingredient i.ingredient with
  | error what => exact careful_lacking_ingredient (.inl rfl) hx
  | ok b => exact careful_stirBy (by rw [ha]; rfl) _

end Frame

/-! ## Statements -/

/-- Whether a statement changes no more than it should, and fails for a reason
that it tells of its own recipe. -/
structure Turn.Careful (t : Turn) (p : Program) (f : Frame) (i : Instruction) : Prop where
  confined : t.outcome = .goesOn → f.Confined i t.frame
  faulty : ∀ e, t.outcome = .ends (.failed e) →
    f.Intact i.bowl t.frame ∧ e.recipe = f.recipe.name ∧ i.Warrants p f e.cause

section

variable {p : Program} {limit depth : UInt32} {fuel : Nat} {cook : Cook} {i : Instruction}
  {f f' : Frame} {k : Kitchen}

theorem careful_goOn (h : f.Confined i f') : (Turn.goOn f' k).Careful p f i :=
  ⟨fun _ => h, fun _ he => by cases he⟩

theorem careful_fail {cause : RunError.Cause} (h : f.Intact i.bowl f')
    (hcause : i.Warrants p f cause) : (Turn.fail f' k cause).Careful p f i := by
  constructor
  · intro hgoes
    cases hgoes
  · intro e he
    cases he
    exact ⟨h, by rw [h.recipe], hcause⟩

/-- A statement that asks for an ingredient that is not declared. -/
theorem careful_fail_lacking {what : Shortage} (hwhat : f.ingredient i.ingredient = .error what) :
    (Turn.fail f k (.lacking i.location what)).Careful p f i := by
  obtain ⟨rfl, hnone⟩ := Frame.ingredient_eq_error hwhat
  exact careful_fail (.inl rfl) ⟨rfl, rfl, hnone⟩

theorem Attempt.Careful.ofAttempt {a : Attempt} (h : a.Careful p f i) :
    ((Trial.ofAttempt a k).caught i.location).Careful p f i := by
  rw [Trial.caught_ofAttempt]
  cases hfault : a.fault with
  | none => exact careful_goOn (h.confined hfault).advance
  | some fault => exact careful_fail (h.faulty fault hfault).1 (h.faulty fault hfault).2

theorem careful_takeStep (ha : i.action = .take) :
    ((takeStep i f k).caught i.location).Careful p f i := by
  unfold takeStep
  cases hx : f.ingredient i.ingredient with
  | error what => exact careful_fail_lacking hx
  | ok b =>
    simp only
    cases k.refrigerator.take.1 with
    | some n => exact careful_goOn (Frame.confined_setValue (by rw [ha]; rfl) _).advance
    | none =>
      refine careful_fail (.inl rfl) ?_
      split <;> exact ha

theorem careful_mixStep (ha : i.action = .mix) : (mixStep fuel i f k).Careful p f i := by
  unfold mixStep
  cases (f.bowl i.bowl).shuffle fuel k.shuffler with
  | none => constructor <;> simp
  | some shuffled => exact careful_goOn (Frame.confined_setBowl (by rw [ha]; rfl) _).advance

theorem careful_loopStartStep : ((loopStartStep i f k).caught i.location).Careful p f i := by
  unfold loopStartStep
  cases hx : f.ingredient i.ingredient with
  | error what => exact careful_fail_lacking hx
  | ok b =>
    refine careful_goOn ?_
    split
    · exact Frame.Confined.refl.jump _
    · exact Frame.Confined.refl.advance

theorem careful_loopEndStep (ha : i.action = .loopEnd) :
    ((loopEndStep i f k).caught i.location).Careful p f i := by
  unfold loopEndStep
  split
  · exact careful_goOn (Frame.Confined.refl.jump _)
  · cases hx : f.ingredient i.ingredient with
    | error what => exact careful_fail_lacking hx
    | ok b => exact careful_goOn ((Frame.confined_setValue (by rw [ha]; rfl) _).jump _)

/-- Every statement that neither serves with another recipe nor serves dishes
changes no more than it should, and fails for a reason of its own. -/
theorem careful_step (hwith : i.action ≠ .serveWith) (hstop : i.action ≠ .refrigerate)
    (hserve : i.action ≠ .serve) : (step p limit fuel cook depth i f k).Careful p f i := by
  have hbowl (h : i.action.namesBowl) (s : Stack) :
      Attempt.Careful { frame := f.setBowl i.bowl s } p f i :=
    Frame.careful_of_confined (Frame.confined_setBowl h s)
  unfold step tryStep
  cases ha : i.action <;> simp only [Trial.caught_ok]
  case take => exact careful_takeStep ha
  case put => exact (Frame.careful_put ha).ofAttempt
  case fold => exact (Frame.careful_fold ha).ofAttempt
  case add | remove | combine =>
    exact (Frame.careful_reckon (by rw [ha]; rfl) fun _ _ _ h => by cases h).ofAttempt
  case divide =>
    exact (Frame.careful_reckon (by rw [ha]; rfl) fun _ _ _ =>
      Frame.warrants_of_quotient ha).ofAttempt
  case addDry | liquefyContents | clean => exact (hbowl (by rw [ha]; rfl) _).ofAttempt
  case liquefy => exact (Frame.careful_liquefy ha).ofAttempt
  case stir => exact (Frame.careful_stirBy (by rw [ha]; rfl) _).ofAttempt
  case stirIngredient => exact (Frame.careful_stirIngredient ha).ofAttempt
  case mix => exact careful_mixStep ha
  case pour =>
    have hreach : f.Confined i (f.reachBowl i.bowl) := Frame.confined_reachBowl (by rw [ha]; rfl)
    exact careful_goOn (hreach.trans (Frame.confined_setDish (by rw [ha]; rfl) _)).advance
  case loopStart => exact careful_loopStartStep
  case loopEnd => exact careful_loopEndStep ha
  case setAside => exact careful_goOn (Frame.Confined.refl.jump _)
  case serveWith => exact absurd ha hwith
  case refrigerate => exact absurd ha hstop
  case serve => exact absurd ha hserve

/-- Serving with a recipe that fails changes nothing. -/
theorem frame_serveWithStep {e : Ending}
    (h : (serveWithStep p limit cook depth i f k).outcome = .ends e) :
    (serveWithStep p limit cook depth i f k).frame = f := by
  unfold serveWithStep at h ⊢
  cases hr : p.find? i.name with
  | none => rfl
  | some recipe =>
    simp only [hr] at h ⊢
    split
    · rfl
    · next hshallow =>
      simp only [hshallow, if_false] at h
      cases hending :
        (cook (depth + 1) { Frame.ofRecipe recipe with bowls := f.bowls } k).ending with
      | done => simp [hending, Turn.goOn] at h
      | failed e => rfl
      | starved => rfl

/-- Whatever a statement that serves no dishes fails for, the frame is left as
it was but for an empty bowl. -/
theorem intact_step {e : RunError} (hstop : i.action ≠ .refrigerate) (hserve : i.action ≠ .serve)
    (h : (step p limit fuel cook depth i f k).outcome = .ends (.failed e)) :
    f.Intact i.bowl (step p limit fuel cook depth i f k).frame := by
  by_cases hwith : i.action = .serveWith
  · have hstep : step p limit fuel cook depth i f k = serveWithStep p limit cook depth i f k := by
      unfold step tryStep
      rw [hwith]
      rfl
    rw [hstep] at h ⊢
    exact .inl (frame_serveWithStep h)
  · exact ((careful_step hwith hstop hserve).faulty e h).1

/-- A statement that serves no dishes leaves the frame as it was if it fails,
but for an empty bowl that was not there; if it succeeds and does not serve with
another recipe, it changes nothing but what it names.  So a recipe that fails at
such a statement has come to it and is left, but for that bowl, as it was just
before. -/
theorem failure_leaves_intact (p : Program) (limit depth : UInt32) (fuel : Nat) :
    (∀ cook i f k, i.action ≠ .refrigerate → i.action ≠ .serve →
      let turn := step p limit fuel cook depth i f k
      (∀ e, turn.outcome = .ends (.failed e) → f.Intact i.bowl turn.frame) ∧
        (turn.outcome = .goesOn → i.action ≠ .serveWith → f.Confined i turn.frame)) ∧
    ∀ f k e, (p.cook limit fuel depth f k).ending = .failed e →
      let cooked := p.cook limit fuel depth f k
      ∃ before m, p.moves limit fuel depth (f.jump 0) k = before ++ [m] ∧
        m.turn.outcome = .ends (.failed e) ∧
        m.frame.recipe.instructions[m.frame.ip]? = some m.statement ∧
        (m.statement.action ≠ .refrigerate → m.statement.action ≠ .serve →
          m.frame.Intact m.statement.bowl cooked.frame ∧ cooked.frame.ip = m.frame.ip) := by
  constructor
  · intro cook i f k hstop hserve turn
    exact ⟨fun e => intact_step hstop hserve,
      fun hgoes hwith => (careful_step hwith hstop hserve).confined hgoes⟩
  · intro f k e hfailed cooked
    obtain ⟨before, m, hmoves, hturn⟩ := exists_last_move hfailed
    have hmade : m.Made p limit fuel depth (f.jump 0).recipe :=
      made_of_mem_moves (by rw [hmoves]; simp)
    refine ⟨before, m, hmoves, by rw [hturn], hmade.statement, fun hstop hserve => ?_⟩
    obtain ⟨fuel', -, hmove⟩ := hmade.turn
    have houtcome : (p.turn limit fuel' depth m.statement m.frame m.kitchen).outcome =
        .ends (.failed e) := by rw [← hmove, hturn]
    have hintact : m.frame.Intact m.statement.bowl m.turn.frame := by
      rw [hmove]
      exact intact_step hstop hserve houtcome
    rw [hturn] at hintact
    exact ⟨hintact, hintact.ip⟩

end

/-- Flour that is folded out of a bowl that nothing was put into: there is such a bowl
now, and the salt in the first bowl and the ingredients are as they were. -/
theorem failure_leaves_intact_batter :
    let puts : Instruction := { action := .put, ingredient := "salt" }
    let folds : Instruction :=
      { action := .fold, ingredient := "flour", bowl := 2, location := { line := 7, col := 1 } }
    let batter : Recipe :=
      { name := "Batter"
        ingredients := [{ name := "flour", value := some 5 }, { name := "salt", value := some 1 }]
        instructions := [puts, folds] }
    let p : Program := {}
    let f := Frame.ofRecipe batter
    let k := Kitchen.prepare .empty 0
    let e : RunError :=
      { recipe := "Batter", cause := .lacking { line := 7, col := 1 } .nothingToTake }
    (p.cook 0 9 0 f k).ending = .failed e ∧
      (p.cook 0 9 0 f k).frame.bowls.entries =
        [(1, { items := [{ number := 1 }] }), (2, .empty)] ∧
      (p.cook 0 9 0 f k).frame.ingredients = f.ingredients ∧ (p.cook 0 9 0 f k).frame.ip = 1 ∧
      ∃ m : Move, m.statement = folds ∧ m.turn.outcome = .ends (.failed e) ∧
        m.frame.Intact 2 (p.cook 0 9 0 f k).frame := by
  intro puts folds batter p f k e
  have hfailed : (p.cook 0 9 0 f k).ending = .failed e := by decide +kernel
  have hlast : (p.moves 0 9 0 (f.jump 0) k).getLast?.map Move.statement = some folds := by
    decide +kernel
  obtain ⟨before, m, hmoves, hturn, -, hintact⟩ := (failure_leaves_intact p 0 0 9).2 f k e hfailed
  have hm : m.statement = folds := by
    rw [hmoves, List.getLast?_concat] at hlast
    exact Option.some.inj hlast
  obtain ⟨hsame, -⟩ := hintact (by simp [hm, folds]) (by simp [hm, folds])
  refine ⟨hfailed, by decide +kernel, by decide +kernel, by decide +kernel, m, hm, hturn, ?_⟩
  rw [hm] at hsame
  exact hsame

end Cookbook
