import Cookbook.Proofs.Cooking.Moves
import Cookbook.Proofs.Cooking.ServingWith

/-!
# Cookbook.Proofs.Cooking.Silence

Recipes that are served with others are silent.

* They serve nothing, and neither do the recipes that they are served with in
  turn (`silent_cookFrom`).
* How many dishes their statements ask for makes no difference: of two programs
  that differ in these numbers only, a recipe that is served with comes to the
  same (`recounts_cookFrom`).

So whatever a run serves is served by statements of the main recipe
(`callees_silent`).  All of this needs a limit below the deepest depth: the depth
of a recipe that is served with then never comes back to 0 (`inner_add_one`).
-/

namespace Cookbook

/-! ## Inner depths -/

/-- Whether a depth is one at which recipes are served with others. -/
structure Inner (limit depth : UInt32) : Prop where
  ne_zero : depth ≠ 0
  le : depth ≤ limit

theorem Inner.limit_ne_zero {limit depth : UInt32} (h : Inner limit depth) : limit ≠ 0 := by
  rintro rfl
  exact h.ne_zero (UInt32.le_zero_iff.1 h.le)

/-- A recipe that is served with stands at an inner depth. -/
theorem inner_add_one {limit depth : UInt32} (hlimit : limit ≠ 0) (hmost : limit < deepest)
    (hle : depth ≤ limit) (hshallow : ¬ (limit ≠ 0 ∧ depth + 1 > limit)) :
    Inner limit (depth + 1) := by
  constructor
  · intro hzero
    have hnat : (depth + 1).toNat = 0 := congrArg UInt32.toNat hzero
    rw [toNat_add_one hmost hle] at hnat
    cases hnat
  · exact UInt32.not_lt.1 fun hgt => hshallow ⟨hlimit, hgt⟩

/-! ## Serving nothing -/

/-- Whether a statement with this action may serve dishes. -/
def Action.serves : Action → Bool
  | refrigerate | serve => true
  | _ => false

/-- Whether a way to cook serves nothing at inner depths. -/
def Cook.Silent (limit : UInt32) (cook : Cook) : Prop :=
  ∀ depth f k, Inner limit depth → (cook depth f k).kitchen.served = k.served

section

variable {p : Program} {limit depth : UInt32} {fuel : Nat} {cook : Cook} {i : Instruction}
  {f : Frame} {k : Kitchen}

theorem served_takeStep : ((takeStep i f k).caught i.location).kitchen.served = k.served := by
  unfold takeStep
  cases f.ingredient i.ingredient with
  | error what => rfl
  | ok b =>
    simp only
    cases k.refrigerator.take.1 <;> rfl

theorem served_mixStep : (mixStep fuel i f k).kitchen.served = k.served := by
  unfold mixStep
  cases (f.bowl i.bowl).shuffle fuel k.shuffler <;> rfl

theorem served_refrigerateStep (hdepth : depth ≠ 0) :
    (refrigerateStep depth i f k).kitchen.served = k.served := by
  unfold refrigerateStep
  cases i.count with
  | none => rfl
  | some count => simp only [if_neg hdepth]

theorem served_step_serveWith (hlimit : limit ≠ 0) (hmost : limit < deepest) (hle : depth ≤ limit)
    (hcook : cook.Silent limit) (ha : i.action = .serveWith) :
    (step p limit fuel cook depth i f k).kitchen.served = k.served := by
  cases hr : p.find? i.name with
  | none =>
    rw [step_serveWith_of_none ha hr]
    rfl
  | some recipe =>
    rw [step_serveWith ha hr]
    split
    · rfl
    · next hshallow =>
      rw [kitchen_ofCooked]
      exact hcook _ _ _ (inner_add_one hlimit hmost hle hshallow)

/-- A statement serves nothing if it stands at an inner depth or does not ask for
dishes. -/
theorem served_step (hlimit : limit ≠ 0) (hmost : limit < deepest) (hle : depth ≤ limit)
    (hcook : cook.Silent limit) (h : depth ≠ 0 ∨ i.action.serves = false) :
    (step p limit fuel cook depth i f k).kitchen.served = k.served := by
  by_cases hwith : i.action = .serveWith
  · exact served_step_serveWith hlimit hmost hle hcook hwith
  unfold step tryStep
  cases ha : i.action <;> simp only [kitchen_ofAttempt, ha, Trial.caught_ok] at h ⊢
  case take => exact served_takeStep
  case mix => exact served_mixStep
  case pour | setAside => rfl
  case loopStart => rw [kitchen_loopStartStep]
  case loopEnd => rw [kitchen_loopEndStep]
  case serveWith => exact absurd ha hwith
  case refrigerate => exact served_refrigerateStep (h.resolve_right (by decide))
  case serve =>
    rw [if_neg (h.resolve_right (by decide))]
    rfl

/-- A recipe that is served with serves nothing, however it ends and whatever it
is served with in turn. -/
theorem silent_cookFrom (hmost : limit < deepest) : Cook.Silent limit (cookFrom p limit fuel) := by
  induction fuel with
  | zero =>
    intro depth f k _
    rfl
  | succ fuel ih =>
    intro depth f k hdepth
    cases hi : f.recipe.instructions[f.ip]? with
    | none => rw [cookFrom_of_none hi]
    | some i =>
      have hserved : (p.turn limit fuel depth i f k).kitchen.served = k.served :=
        served_step hdepth.limit_ne_zero hmost hdepth.le ih (.inl hdepth.ne_zero)
      cases ho : (p.turn limit fuel depth i f k).outcome with
      | goesOn =>
        rw [cookFrom_of_goesOn hi ho, ih depth _ _ hdepth, hserved]
      | ends e =>
        rw [cookFrom_of_ends hi ho]
        exact hserved

end

/-! ## How many dishes are asked for -/

/-- The same statement with nothing said of how many dishes to serve. -/
def Instruction.uncounted (i : Instruction) : Instruction :=
  if i.action.serves then { i with count := none } else i

/-- The same recipe with nothing said of how many dishes to serve. -/
def Recipe.uncounted (r : Recipe) : Recipe :=
  { r with instructions := r.instructions.map Instruction.uncounted }

/-- Whether two recipes differ at most in how many dishes are asked for. -/
def Recipe.Recounts (r s : Recipe) : Prop := s.uncounted = r.uncounted

instance (r s : Recipe) : Decidable (r.Recounts s) :=
  inferInstanceAs (Decidable (s.uncounted = r.uncounted))

/-- Whether the recipes of two programs differ at most in how many dishes are
asked for. -/
def Program.Recounts (p q : Program) : Prop :=
  q.recipes.entries.map (Prod.map id Recipe.uncounted) =
    p.recipes.entries.map (Prod.map id Recipe.uncounted)

instance (p q : Program) : Decidable (p.Recounts q) :=
  inferInstanceAs (Decidable (List.map _ _ = List.map _ _))

theorem Shelf.find?_map {κ α β : Type} [DecidableEq κ] (g : α → β) (k : κ) (l : List (κ × α)) :
    Shelf.find? k (l.map (Prod.map id g)) = (Shelf.find? k l).map g := by
  induction l with
  | nil => rfl
  | cons e l ih =>
    rw [List.map_cons, Shelf.find?, Shelf.find?, ih]
    simp only [Prod.map_fst, id_eq, Prod.map_snd]
    split <;> rfl

section

variable {p q : Program} {r s : Recipe}

theorem Program.Recounts.find? (h : p.Recounts q) (name : Text) :
    (q.find? name).map Recipe.uncounted = (p.find? name).map Recipe.uncounted := by
  unfold Program.find? Shelf.get?
  rw [← Shelf.find?_map, ← Shelf.find?_map, h]

theorem Recipe.Recounts.name (h : r.Recounts s) : s.name = r.name := by
  have hname : s.uncounted.name = r.uncounted.name := congrArg Recipe.name h
  exact hname

theorem Recipe.Recounts.ingredients (h : r.Recounts s) : s.ingredients = r.ingredients := by
  have hall : s.uncounted.ingredients = r.uncounted.ingredients := congrArg Recipe.ingredients h
  exact hall

theorem Recipe.Recounts.statement (h : r.Recounts s) (n : Nat) :
    s.instructions[n]?.map Instruction.uncounted =
      r.instructions[n]?.map Instruction.uncounted := by
  have hall : s.instructions.map Instruction.uncounted = r.instructions.map Instruction.uncounted :=
    congrArg Recipe.instructions h
  rw [← List.getElem?_map, ← List.getElem?_map, hall]

end

/-- Whether two ways to cook do the same at inner depths with recipes that differ
in how many dishes are asked for. -/
def Cook.Recounts (limit : UInt32) (cook cook' : Cook) : Prop :=
  ∀ depth f k r, Inner limit depth → f.recipe.Recounts r →
    cook' depth (f.withRecipe r) k = (cook depth f k).withRecipe r

section

variable {p q : Program} {limit depth : UInt32} {fuel : Nat} {cook cook' : Cook}
  {i j : Instruction} {f : Frame} {k : Kitchen} {r s : Recipe}

/-- At an inner depth it makes no difference how many dishes are asked for. -/
theorem step_uncounted (hdepth : depth ≠ 0) :
    step p limit fuel cook depth i.uncounted f k = step p limit fuel cook depth i f k := by
  unfold Instruction.uncounted
  split
  · next hserves =>
    unfold step tryStep
    cases ha : i.action <;>
      simp only [ha, Action.serves, Bool.false_eq_true, Trial.caught_ok] at hserves ⊢
    case refrigerate =>
      unfold refrigerateStep
      cases i.count <;> simp only [if_neg hdepth]
    case serve => simp only [if_neg hdepth]
  · rfl

theorem ofCooked_withRecipe (cooked : Cooked) :
    Turn.ofCooked f (cooked.withRecipe r) = Turn.ofCooked f cooked := by
  unfold Turn.ofCooked Cooked.withRecipe
  cases cooked.ending <;> rfl

theorem servedWith_of_recounts (h : r.Recounts s) :
    f.servedWith s = (f.servedWith r).withRecipe s := by
  unfold Frame.servedWith Frame.withRecipe
  rw [h.ingredients]

/-- Only serving with another recipe looks at the other recipes. -/
theorem step_recounts (hlimit : limit ≠ 0) (hmost : limit < deepest) (hle : depth ≤ limit)
    (hpq : p.Recounts q) (hcook : Cook.Recounts limit cook cook') :
    step q limit fuel cook' depth i f k = step p limit fuel cook depth i f k := by
  by_cases hwith : i.action = .serveWith
  · have hfind := hpq.find? i.name
    cases hr : p.find? i.name with
    | none =>
      rw [hr, Option.map_none, Option.map_eq_none_iff] at hfind
      rw [step_serveWith_of_none hwith hr, step_serveWith_of_none hwith hfind]
    | some r =>
      rw [hr, Option.map_some, Option.map_eq_some_iff] at hfind
      obtain ⟨s, hs, hrs⟩ := hfind
      rw [step_serveWith hwith hr, step_serveWith hwith hs]
      split
      · rfl
      · next hshallow =>
        have hinner := inner_add_one hlimit hmost hle hshallow
        rw [servedWith_of_recounts hrs, hcook _ (f.servedWith r) _ _ hinner hrs,
          ofCooked_withRecipe]
  · unfold step tryStep
    cases ha : i.action <;> simp only [Trial.caught_ok]
    case serveWith => exact absurd ha hwith

/-- Of two programs that differ in how many dishes are asked for, a recipe that is
served with comes to the same. -/
theorem recounts_cookFrom (hmost : limit < deepest) (hpq : p.Recounts q) :
    Cook.Recounts limit (cookFrom p limit fuel) (cookFrom q limit fuel) := by
  induction fuel with
  | zero =>
    intro depth f k r _ _
    rfl
  | succ fuel ih =>
    intro depth f k r hdepth hr
    have hstatement := hr.statement f.ip
    cases hi : f.recipe.instructions[f.ip]? with
    | none =>
      rw [hi, Option.map_none, Option.map_eq_none_iff] at hstatement
      rw [cookFrom_of_none hi, cookFrom_of_none hstatement]
      rfl
    | some i =>
      rw [hi, Option.map_some, Option.map_eq_some_iff] at hstatement
      obtain ⟨j, hj, hij⟩ := hstatement
      have hturn : q.turn limit fuel depth j (f.withRecipe r) k =
          (p.turn limit fuel depth i f k).withRecipe r := by
        unfold Program.turn
        rw [← step_uncounted hdepth.ne_zero, hij, step_uncounted hdepth.ne_zero,
          step_withRecipe hr.name, step_recounts hdepth.limit_ne_zero hmost hdepth.le hpq ih]
      have houtcome : (q.turn limit fuel depth j (f.withRecipe r) k).outcome =
          (p.turn limit fuel depth i f k).outcome := by
        rw [hturn]
        rfl
      cases ho : (p.turn limit fuel depth i f k).outcome with
      | goesOn =>
        have hsame : (p.turn limit fuel depth i f k).frame.recipe.Recounts r := by
          rw [recipe_turn]
          exact hr
        rw [cookFrom_of_goesOn hi ho, cookFrom_of_goesOn hj (houtcome.trans ho), hturn]
        exact ih depth _ _ r hdepth hsame
      | ends e =>
        rw [cookFrom_of_ends hi ho, cookFrom_of_ends hj (houtcome.trans ho), hturn]
        rfl

end

/-! ## What a run serves -/

/-- What a move adds to what is served. -/
def Move.written (m : Move) : Text :=
  m.turn.kitchen.served.toList.drop m.kitchen.served.size

/-- The moves of the main recipe. -/
def Program.mainMoves (p : Program) (limit : UInt32) (fuel : Nat) (k : Kitchen) : List Move :=
  match p.mainRecipe? with
  | none => []
  | some main => p.moves limit fuel 0 (Frame.ofRecipe main) k

namespace Served

theorem isPrefix_values (written : Array UInt8) (items : List Value) :
    written.toList <+: (values written items).1.toList := by
  induction items generalizing written with
  | nil => exact List.prefix_rfl
  | cons v rest ih =>
    rw [values]
    cases v.serving? with
    | none => exact List.prefix_rfl
    | some text =>
      refine List.IsPrefix.trans ?_ (ih (written ++ text))
      rw [Array.toList_appendList]
      exact List.prefix_append _ _

theorem isPrefix_dishesFrom (dishes : Shelf UInt32 Stack) (written : Array UInt8)
    (count n : Nat) : written.toList <+: (dishesFrom dishes written count n).written.toList := by
  induction count generalizing dishes written n with
  | zero => exact List.prefix_rfl
  | succ count ih =>
    have hfeed : written.toList <+:
        (if n > 1 then written.push Text.lineFeed else written).toList := by
      split
      · rw [Array.toList_push]
        exact List.prefix_append _ _
      · exact List.prefix_rfl
    refine hfeed.trans ?_
    rw [dishesFrom]
    generalize (if n > 1 then written.push Text.lineFeed else written) = written'
    cases dishes.get? (UInt32.ofNat n) with
    | none => exact ih _ _ _
    | some dish =>
      simp only
      refine (isPrefix_values written' dish.items).trans ?_
      cases (values written' dish.items).2.2 with
      | some refused => exact List.prefix_rfl
      | none => exact ih _ _ _

end Served

section

variable {p : Program} {limit depth : UInt32} {fuel : Nat} {cook : Cook} {i : Instruction}
  {f : Frame} {k : Kitchen}

/-- Serving only adds to what is served. -/
theorem isPrefix_serveStep {count : Int64} {next : Frame → Kitchen → Turn}
    (hnext : ∀ f k, (next f k).kitchen = k) :
    k.served.toList <+: (serveStep count f k next).kitchen.served.toList := by
  have hserved := Served.isPrefix_dishesFrom f.dishes k.served
    (min count.toInt.toNat (UInt32.size - 1)) 1
  unfold serveStep
  simp only
  cases (Served.firstDishes f.dishes k.served count).refused with
  | some refused => exact hserved
  | none =>
    simp only [hnext]
    exact hserved

/-- A statement of the main recipe that asks for dishes only adds to what is
served. -/
theorem isPrefix_turn_of_serves (hserves : i.action.serves) :
    k.served.toList <+: (p.turn limit fuel 0 i f k).kitchen.served.toList := by
  unfold Program.turn step tryStep
  cases ha : i.action <;>
    simp only [ha, Action.serves, Bool.false_eq_true, Trial.caught_ok] at hserves ⊢
  case refrigerate =>
    unfold refrigerateStep
    cases i.count with
    | none => exact List.prefix_rfl
    | some count =>
      simp only [if_true]
      exact isPrefix_serveStep fun _ _ => rfl
  case serve =>
    rw [if_pos trivial]
    exact isPrefix_serveStep fun _ _ => rfl

/-- What a statement of the main recipe adds to what is served. -/
theorem served_turn (hlimit : limit ≠ 0) (hmost : limit < deepest) :
    (p.turn limit fuel 0 i f k).kitchen.served.toList =
      k.served.toList ++ if i.action.serves then (p.move limit fuel 0 i f k).written else [] := by
  cases hserves : i.action.serves with
  | true =>
    have hadds : k.served.toList <+: (p.turn limit fuel 0 i f k).kitchen.served.toList :=
      isPrefix_turn_of_serves hserves
    rw [if_pos rfl, Move.written, Program.move]
    exact List.prefix_iff_eq_append.1 hadds |>.symm
  | false =>
    have hzero : (0 : UInt32) ≤ limit := UInt32.zero_le
    rw [Program.turn, served_step hlimit hmost hzero (silent_cookFrom hmost) (.inr hserves)]
    simp

/-- What the main recipe serves is what its statements that ask for dishes add. -/
theorem served_cookFrom (hlimit : limit ≠ 0) (hmost : limit < deepest) :
    (cookFrom p limit fuel 0 f k).kitchen.served.toList =
      k.served.toList ++
        ((p.moves limit fuel 0 f k).filter (·.statement.action.serves)).flatMap Move.written := by
  induction fuel, f, k using cookFrom_induction p limit 0 with
  | starved f k => simp [cookFrom, Program.moves]
  | finished fuel f k hi =>
    rw [cookFrom_of_none hi, moves_of_none hi]
    simp
  | goesOn fuel f k i hi ho ih =>
    rw [cookFrom_of_goesOn hi ho, moves_of_goesOn hi ho, ih, served_turn hlimit hmost,
      List.filter_cons]
    cases hserves : i.action.serves <;> simp [Program.move, hserves]
  | ends fuel f k i e hi ho =>
    rw [cookFrom_of_ends hi ho, moves_of_ends hi ho, served_turn hlimit hmost, List.filter_cons]
    cases hserves : i.action.serves <;> simp [Program.move, hserves]

/-- A recipe that is served with serves nothing, however it ends, and what it
comes to does not depend on how many dishes any recipe asks for.  So everything
that a run serves is served by statements of the main recipe. -/
theorem callees_silent (p : Program) (limit : UInt32) (fuel : Nat) (hlimit : 1 ≤ limit)
    (hmost : limit < deepest) :
    (∀ depth f k, 1 ≤ depth → depth ≤ limit →
      (p.cook limit fuel depth f k).kitchen.served = k.served ∧
      ∀ q r, p.Recounts q → f.recipe.Recounts r →
        q.cook limit fuel depth (f.withRecipe r) k = (p.cook limit fuel depth f k).withRecipe r) ∧
    ∀ k, (p.run limit fuel k).2.served.toList =
      k.served.toList ++
        ((p.mainMoves limit fuel k).filter (·.statement.action.serves)).flatMap Move.written := by
  have hne {n : UInt32} (h : 1 ≤ n) : n ≠ 0 := by
    rintro rfl
    exact absurd h (by decide)
  constructor
  · intro depth f k hdepth hle
    have hinner : Inner limit depth := ⟨hne hdepth, hle⟩
    exact ⟨silent_cookFrom hmost depth _ k hinner,
      fun q r hpq hr => recounts_cookFrom hmost hpq depth (f.jump 0) k r hinner hr⟩
  · intro k
    unfold Program.run Program.mainMoves
    cases p.mainRecipe? with
    | none => simp
    | some main => exact served_cookFrom (hne hlimit) hmost

end

/-- A roast is served with a relish that asks for dishes of its own.  The relish
serves none of them, and it would do the same if it did not ask; the roast serves
the plum that comes back. -/
theorem callees_silent_relish :
    let relish (count : Option Int64) : Recipe :=
      { name := "Relish", ingredients := [{ name := "plum", value := some 72, kind := .liquid }]
        instructions := [{ action := .put, ingredient := "plum" }, { action := .pour },
          { action := .serve, count }] }
    let roast : Recipe :=
      { name := "Roast"
        instructions := [{ action := .serveWith, name := "relish" }, { action := .pour },
          { action := .serve, count := some 1 }] }
    let book (count : Option Int64) := Program.ofRecipes "Roast" [roast, relish count]
    let f := Frame.ofRecipe (relish (some 1))
    let k := Kitchen.prepare .empty 0
    let cooked := (book (some 1)).cook 1 9 1 f k
    cooked.ending = .done ∧ cooked.kitchen.served = k.served ∧
      (book none).cook 1 9 1 (f.withRecipe (relish none)) k = cooked.withRecipe (relish none) ∧
      ((book (some 1)).run 1 9 k).2.served.toList = Text.ofString "H" ∧
      (((book (some 1)).mainMoves 1 9 k).filter (·.statement.action.serves)).flatMap Move.written =
        Text.ofString "H" := by
  intro relish roast book f k cooked
  obtain ⟨hinner, hrun⟩ := callees_silent (book (some 1)) 1 9 (by decide) (by decide)
  obtain ⟨hsilent, hrecounts⟩ := hinner 1 f k (by decide) (by decide)
  have hdone : cooked.ending = .done := by decide +kernel
  have hserved : ((book (some 1)).run 1 9 k).2.served.toList = Text.ofString "H" := by
    decide +kernel
  have hnone : k.served.toList = [] := rfl
  refine ⟨hdone, hsilent, hrecounts (book none) (relish none) (by decide) (by decide), hserved, ?_⟩
  rw [← hserved, hrun k, hnone, List.nil_append]

end Cookbook
