import Cookbook.Proofs.Cooking.Fuel

/-!
# Cookbook.Proofs.Cooking.ServingWith

Serving with another recipe.  The recipe is cooked in a frame of its own, which
shares nothing with the frame that asks for it but a copy of the bowls
(`Frame.servedWith`).

What comes back is put over the bowls of the frame that asked.  No statement
takes a bowl away (`within_turn`), however long a recipe is cooked
(`within_cookFrom`), so the bowls that come back replace all the old ones
(`turn_serveWith`).  A recipe that fails changes nothing.

How deep recipes are served within each other is counted in 32 bits
(`step_serveWith`).
-/

namespace Cookbook

/-! ## Shelves -/

namespace Shelf

variable {κ α : Type} [Ord κ] [DecidableEq κ]

/-- Whether every label of a shelf is in use on another. -/
def Within (s t : Shelf κ α) : Prop := ∀ k, s.contains k → t.contains k

theorem Within.refl (s : Shelf κ α) : s.Within s := fun _ h => h

theorem Within.trans {s t u : Shelf κ α} (h : s.Within t) (h' : t.Within u) : s.Within u :=
  fun k hk => h' k (h k hk)

omit [Ord κ] in
theorem find?_eq_none_of_ne {k : κ} {l : List (κ × α)} (h : ∀ e ∈ l, k ≠ e.1) :
    find? k l = none := by
  induction l with
  | nil => rfl
  | cons e l ih =>
    rw [List.forall_mem_cons] at h
    rw [find?, if_neg h.1, ih h.2]

variable [Std.TransOrd κ] [Std.LawfulEqOrd κ]

theorem within_insert (s : Shelf κ α) (k : κ) (a : α) : s.Within (s.insert k a) := by
  intro k' hk'
  rw [contains, get?_insert]
  split
  · rfl
  · exact hk'

theorem within_insertNew (s : Shelf κ α) (k : κ) (a : α) : s.Within (s.insertNew k a) := by
  unfold insertNew
  split
  · exact .refl s
  · exact s.within_insert k a

/-- Things with different labels that are put onto a shelf are all found. -/
theorem get?_foldl_insert {l : List (κ × α)} (hl : l.Pairwise fun a b => a.1 ≠ b.1)
    (s : Shelf κ α) (k : κ) :
    (l.foldl (fun s e => s.insert e.1 e.2) s).get? k = (find? k l).or (s.get? k) := by
  induction l generalizing s with
  | nil => rfl
  | cons e l ih =>
    rw [List.pairwise_cons] at hl
    rw [List.foldl_cons, ih hl.2, get?_insert, find?]
    by_cases hk : k = e.1
    · subst hk
      rw [if_pos rfl, if_pos rfl, find?_eq_none_of_ne hl.1]
      rfl
    · rw [if_neg hk, if_neg hk]

theorem get?_overlay (s t : Shelf κ α) (k : κ) :
    (s.overlay t).get? k = (t.get? k).or (s.get? k) :=
  get?_foldl_insert (t.ascending.imp ne_of_lt) s k

theorem within_overlay (s t : Shelf κ α) : s.Within (s.overlay t) := by
  intro k hk
  rw [contains] at hk
  rw [contains, get?_overlay, Option.isSome_or, hk, Bool.or_true]

/-- A shelf that has every label of another replaces it. -/
theorem overlay_eq_of_within {s t : Shelf κ α} (h : s.Within t) : s.overlay t = t := by
  refine ext_get? fun k => ?_
  rw [get?_overlay]
  cases ht : t.get? k with
  | some a => rfl
  | none =>
    cases hs : s.get? k with
    | none => rfl
    | some b =>
      have hk := h k (by rw [contains, hs]; rfl)
      rw [contains, ht] at hk
      cases hk

end Shelf

/-! ## No statement takes a bowl away -/

namespace Frame

variable (f : Frame) (i : Instruction)

@[simp] theorem bowls_setValue (name : Text) (v : Value) : (f.setValue name v).bowls = f.bowls := by
  unfold setValue
  cases f.ingredients.get? name <;> rfl

theorem within_setBowl (n : UInt32) (s : Stack) : f.bowls.Within (f.setBowl n s).bowls :=
  f.bowls.within_insert n s

theorem within_reachBowl (n : UInt32) : f.bowls.Within (f.reachBowl n).bowls :=
  f.bowls.within_insertNew n .empty

theorem within_put : f.bowls.Within (f.put i).frame.bowls := by
  have hreach := f.within_reachBowl i.bowl
  unfold put
  simp only
  cases (f.reachBowl i.bowl).ingredient i.ingredient with
  | error what => exact hreach
  | ok b => exact hreach.trans (within_setBowl _ _ _)

theorem within_fold : f.bowls.Within (f.fold i).frame.bowls := by
  unfold fold
  cases f.ingredient i.ingredient with
  | error what => exact .refl _
  | ok b =>
    cases (f.bowl i.bowl).pop with
    | error what => exact f.within_reachBowl i.bowl
    | ok popped =>
      simp only [bowls_setValue]
      exact f.within_setBowl i.bowl popped.2

theorem within_reckon (op : Int64 → Int64 → Except RunError.Cause Int64) :
    f.bowls.Within (f.reckon i op).frame.bowls := by
  unfold reckon
  cases f.ingredient i.ingredient with
  | error what => exact .refl _
  | ok b =>
    cases (f.bowl i.bowl).pop with
    | error what => exact f.within_reachBowl i.bowl
    | ok popped =>
      simp only
      cases op popped.1.number b.value.number with
      | error fault => exact .refl _
      | ok n => exact f.within_setBowl i.bowl _

theorem within_liquefy : f.bowls.Within (f.liquefy i).frame.bowls := by
  unfold liquefy
  cases f.ingredient i.ingredient with
  | error what => exact .refl _
  | ok b =>
    simp only [bowls_setValue]
    exact .refl _

theorem within_stirBy (depth : Nat) : f.bowls.Within (f.stirBy i depth).frame.bowls := by
  unfold stirBy
  cases (f.bowl i.bowl).stir depth with
  | error what => exact f.within_reachBowl i.bowl
  | ok s => exact f.within_setBowl i.bowl s

theorem within_stirIngredient : f.bowls.Within (f.stirIngredient i).frame.bowls := by
  unfold stirIngredient
  cases f.ingredient i.ingredient with
  | error what => exact .refl _
  | ok b => exact f.within_stirBy i _

end Frame

theorem bowls_ofAttempt (a : Attempt) (k : Kitchen) (place : Location) :
    ((Trial.ofAttempt a k).caught place).frame.bowls = a.frame.bowls := by
  rw [Trial.caught_ofAttempt]
  split <;> rfl

theorem kitchen_ofAttempt (a : Attempt) (k : Kitchen) (place : Location) :
    ((Trial.ofAttempt a k).caught place).kitchen = k := by
  rw [Trial.caught_ofAttempt]
  split <;> rfl

section

variable {p : Program} {limit depth : UInt32} {fuel : Nat} {cook : Cook} {i : Instruction}
  {f : Frame} {k : Kitchen}

theorem bowls_takeStep : ((takeStep i f k).caught i.location).frame.bowls = f.bowls := by
  unfold takeStep
  cases f.ingredient i.ingredient with
  | error what => rfl
  | ok b =>
    simp only
    cases k.refrigerator.take.1 with
    | none => rfl
    | some number => exact Frame.bowls_setValue _ _ _

theorem within_mixStep : f.bowls.Within (mixStep fuel i f k).frame.bowls := by
  unfold mixStep
  cases (f.bowl i.bowl).shuffle fuel k.shuffler with
  | none => exact .refl _
  | some shuffled => exact f.within_setBowl i.bowl shuffled.1

theorem bowls_loopStartStep :
    ((loopStartStep i f k).caught i.location).frame.bowls = f.bowls := by
  unfold loopStartStep
  cases f.ingredient i.ingredient with
  | error what => rfl
  | ok b =>
    simp only [Turn.goOn]
    split <;> rfl

theorem bowls_loopEndStep : ((loopEndStep i f k).caught i.location).frame.bowls = f.bowls := by
  unfold loopEndStep
  by_cases hempty : i.ingredient.isEmpty
  · rw [if_pos hempty]
    rfl
  · rw [if_neg hempty]
    cases f.ingredient i.ingredient with
    | error what => rfl
    | ok b => exact Frame.bowls_setValue _ _ _

theorem kitchen_loopStartStep : ((loopStartStep i f k).caught i.location).kitchen = k := by
  unfold loopStartStep
  cases f.ingredient i.ingredient <;> rfl

theorem kitchen_loopEndStep : ((loopEndStep i f k).caught i.location).kitchen = k := by
  unfold loopEndStep
  split
  · rfl
  · cases f.ingredient i.ingredient <;> rfl

theorem bowls_serveStep {count : Int64} {next : Frame → Kitchen → Turn}
    (hnext : ∀ f k, (next f k).frame.bowls = f.bowls) :
    (serveStep count f k next).frame.bowls = f.bowls := by
  unfold serveStep
  simp only
  cases (Served.firstDishes f.dishes k.served count).refused with
  | some refused => rfl
  | none => exact hnext { f with dishes := _ } _

theorem bowls_refrigerateStep : (refrigerateStep depth i f k).frame.bowls = f.bowls := by
  unfold refrigerateStep
  cases i.count with
  | none => rfl
  | some count =>
    by_cases hdepth : depth = 0
    · simp only [if_pos hdepth]
      exact bowls_serveStep fun _ _ => rfl
    · simp only [if_neg hdepth]

theorem within_serveWithStep :
    f.bowls.Within (serveWithStep p limit cook depth i f k).frame.bowls := by
  unfold serveWithStep
  cases p.find? i.name with
  | none => exact .refl _
  | some recipe =>
    by_cases hdeep : limit ≠ 0 ∧ depth + 1 > limit
    · simp only [if_pos hdeep]
      exact .refl _
    · simp only [if_neg hdeep]
      cases (cook (depth + 1) { Frame.ofRecipe recipe with bowls := f.bowls } k).ending with
      | done => exact f.bowls.within_overlay _
      | failed e => exact .refl _
      | starved => exact .refl _

/-- No statement takes a bowl away. -/
theorem within_turn : f.bowls.Within (p.turn limit fuel depth i f k).frame.bowls := by
  have hsame {f' : Frame} (h : f'.bowls = f.bowls) : f.bowls.Within f'.bowls := h ▸ .refl f.bowls
  unfold Program.turn step tryStep
  cases i.action <;> simp only [bowls_ofAttempt, Trial.caught_ok]
  case take => exact hsame bowls_takeStep
  case put => exact f.within_put i
  case fold => exact f.within_fold i
  case add | remove | combine | divide => exact f.within_reckon i _
  case addDry | liquefyContents | clean => exact f.within_setBowl i.bowl _
  case liquefy => exact f.within_liquefy i
  case stir => exact f.within_stirBy i _
  case stirIngredient => exact f.within_stirIngredient i
  case mix => exact within_mixStep
  case pour => exact f.within_reachBowl i.bowl
  case loopStart => exact hsame bowls_loopStartStep
  case loopEnd => exact hsame bowls_loopEndStep
  case setAside => exact .refl _
  case serveWith => exact within_serveWithStep
  case refrigerate => exact hsame bowls_refrigerateStep
  case serve =>
    by_cases hdepth : depth = 0
    · simp only [if_pos hdepth]
      exact hsame (bowls_serveStep fun _ _ => rfl)
    · simp only [if_neg hdepth]
      exact .refl _

/-- However long a recipe is cooked, and however it ends, no bowl is taken
away. -/
theorem within_cookFrom : f.bowls.Within (cookFrom p limit fuel depth f k).frame.bowls := by
  induction fuel, f, k using cookFrom_induction p limit depth with
  | starved f k => exact .refl _
  | finished fuel f k hi =>
    rw [cookFrom_of_none hi]
    exact .refl _
  | goesOn fuel f k i hi ho ih =>
    rw [cookFrom_of_goesOn hi ho]
    exact within_turn.trans ih
  | ends fuel f k i e hi ho =>
    rw [cookFrom_of_ends hi ho]
    exact within_turn

theorem within_cook : f.bowls.Within (p.cook limit fuel depth f k).frame.bowls :=
  within_cookFrom (f := f.jump 0)

end

/-! ## The recipe that is served with -/

/-- The frame that a recipe is cooked in when another is served with it: its own
ingredients as they are declared, no dishes, and copies of the bowls. -/
def Frame.servedWith (f : Frame) (recipe : Recipe) : Frame where
  recipe
  bowls := f.bowls
  dishes := .empty
  ingredients := Frame.declare recipe.ingredients
  ip := 0

/-- What the recipe that asked goes on with: the bowls that come back, or
nothing new if the other recipe did not come to its end. -/
def Turn.ofCooked (f : Frame) (cooked : Cooked) : Turn :=
  match cooked.ending with
  | .done => .goOn { f with bowls := f.bowls.overlay cooked.frame.bowls }.advance cooked.kitchen
  | ending => { outcome := .ends ending, frame := f, kitchen := cooked.kitchen }

theorem kitchen_ofCooked (f : Frame) (cooked : Cooked) :
    (Turn.ofCooked f cooked).kitchen = cooked.kitchen := by
  unfold Turn.ofCooked
  cases cooked.ending <;> rfl

section

variable {p : Program} {limit depth : UInt32} {fuel : Nat} {cook : Cook} {i : Instruction}
  {f : Frame} {k : Kitchen} {recipe : Recipe}

/-- A statement that serves with a recipe that is not there fails. -/
theorem step_serveWith_of_none (ha : i.action = .serveWith) (hr : p.find? i.name = none) :
    step p limit fuel cook depth i f k = .fail f k (.noSuchRecipe i.name) := by
  unfold step tryStep serveWithStep
  simp only [ha, hr, Trial.caught_ok]

/-- A statement that serves with a recipe that is there does so unless the limit
is passed. -/
theorem step_serveWith (ha : i.action = .serveWith) (hr : p.find? i.name = some recipe) :
    step p limit fuel cook depth i f k =
      if limit ≠ 0 ∧ depth + 1 > limit then .fail f k .tooDeep
      else .ofCooked f (cook (depth + 1) (f.servedWith recipe) k) := by
  unfold step tryStep serveWithStep
  simp only [ha, hr, Trial.caught_ok]
  split
  · rfl
  · unfold Turn.ofCooked
    rfl

theorem shallow_iff :
    limit = 0 ∨ depth + 1 ≤ limit ↔ ¬ (limit ≠ 0 ∧ depth + 1 > limit) := by
  rw [Decidable.not_and_iff_not_or_not, Decidable.not_not, gt_iff_lt, UInt32.not_lt]

/-- Within the limit the recipe is cooked. -/
theorem turn_serveWith_eq (ha : i.action = .serveWith) (hr : p.find? i.name = some recipe)
    (hlimit : limit = 0 ∨ depth + 1 ≤ limit) :
    p.turn limit fuel depth i f k =
      .ofCooked f (p.cook limit fuel (depth + 1) (f.servedWith recipe) k) := by
  rw [Program.turn, step_serveWith ha hr, if_neg (shallow_iff.1 hlimit)]
  rfl

/-- The bowls that come back replace all the old ones. -/
theorem overlay_servedWith :
    f.bowls.overlay (p.cook limit fuel depth (f.servedWith recipe) k).frame.bowls =
      (p.cook limit fuel depth (f.servedWith recipe) k).frame.bowls :=
  Shelf.overlay_eq_of_within (within_cook (f := f.servedWith recipe))

/-- A recipe that is served with works on its own ingredients, on dishes of its
own and on copies of the bowls.  If it comes to its end, the bowls it leaves
become those of the recipe that asked, which keeps its ingredients and dishes
and goes on with its next statement.  If it does not, the recipe that asked is
left as it was. -/
theorem turn_serveWith (ha : i.action = .serveWith) (hr : p.find? i.name = some recipe)
    (hlimit : limit = 0 ∨ depth + 1 ≤ limit) :
    let callee : Frame :=
      { recipe, bowls := f.bowls, dishes := .empty
        ingredients := Frame.declare recipe.ingredients, ip := 0 }
    let cooked := p.cook limit fuel (depth + 1) callee k
    let turn := p.turn limit fuel depth i f k
    turn.kitchen = cooked.kitchen ∧
      (cooked.ending = .done → turn.outcome = .goesOn ∧
        turn.frame = { f with bowls := cooked.frame.bowls, ip := f.ip + 1 }) ∧
      (cooked.ending ≠ .done → turn.outcome = .ends cooked.ending ∧ turn.frame = f) := by
  intro callee cooked turn
  have hturn : turn = .ofCooked f cooked := turn_serveWith_eq ha hr hlimit
  have hbowls : f.bowls.overlay cooked.frame.bowls = cooked.frame.bowls := overlay_servedWith
  clear_value turn cooked
  rw [hturn, Turn.ofCooked]
  cases hending : cooked.ending with
  | done =>
    refine ⟨rfl, fun _ => ⟨rfl, ?_⟩, fun hne => absurd rfl hne⟩
    simp only [Turn.goOn, Frame.advance, hbowls]
  | failed e => exact ⟨rfl, by simp, fun _ => ⟨rfl, rfl⟩⟩
  | starved => exact ⟨rfl, by simp, fun _ => ⟨rfl, rfl⟩⟩

end

/-- A sauce that empties the bowl of the soup it is served with and leaves one of
its own, and a garnish that fails in the recipe it is itself served with. -/
theorem turn_serveWith_soup :
    let asks (name : Text) : Instruction := { action := .serveWith, name }
    let soup : Recipe := { name := "Soup", ingredients := [{ name := "salt", value := some 7 }] }
    let sauce : Recipe :=
      { name := "Sauce", ingredients := [{ name := "oil", value := some 3 }]
        instructions := [{ action := .clean }, { action := .put, ingredient := "oil", bowl := 2 }] }
    let garnish : Recipe :=
      { name := "Garnish", instructions := [{ action := .clean }, asks "Herbs"] }
    let herbs : Recipe := { name := "Herbs", instructions := [{ action := .stir, bowl := 9 }] }
    let p := Program.ofRecipes "Soup" [soup, sauce, garnish, herbs]
    let f := ((Frame.ofRecipe soup).setBowl 1 { items := [{ number := 5 }] }).setDish 1 .empty
    let k := Kitchen.prepare .empty 0
    let withSauce := p.turn 2 9 0 (asks "SAUCE") f k
    let withGarnish := p.turn 2 9 0 (asks "garnish") f k
    let fault : RunError := { recipe := "Herbs", cause := .lacking {} .nothingToTake }
    (withSauce.outcome = .goesOn ∧ withSauce.frame.dishes = f.dishes ∧
        withSauce.frame.bowls.entries = [(1, .empty), (2, { items := [{ number := 3 }] })]) ∧
      withGarnish.outcome = .ends (.failed fault) ∧ withGarnish.frame = f := by
  intro asks soup sauce garnish herbs p f k withSauce withGarnish fault
  have hlimit : (2 : UInt32) = 0 ∨ (0 : UInt32) + 1 ≤ 2 := by decide
  have hsauce : p.find? (asks "SAUCE").name = some sauce := by decide
  have hgarnish : p.find? (asks "garnish").name = some garnish := by decide
  have hdone : (p.cook 2 9 1 (f.servedWith sauce) k).ending = .done := by decide +kernel
  have hbowls : (p.cook 2 9 1 (f.servedWith sauce) k).frame.bowls.entries =
      [(1, .empty), (2, { items := [{ number := 3 }] })] := by decide +kernel
  have hfailed : (p.cook 2 9 1 (f.servedWith garnish) k).ending = .failed fault := by
    decide +kernel
  constructor
  · obtain ⟨hgoes, hframe⟩ := (turn_serveWith (k := k) rfl hsauce hlimit).2.1 hdone
    have hentries : withSauce.frame.bowls.entries = _ := congrArg (·.bowls.entries) hframe
    exact ⟨hgoes, congrArg (·.dishes) hframe, hentries.trans hbowls⟩
  · have hne : (p.cook 2 9 1 (f.servedWith garnish) k).ending ≠ .done := by simp [hfailed]
    obtain ⟨hends, hframe⟩ := (turn_serveWith (k := k) rfl hgarnish hlimit).2.2 hne
    exact ⟨hends.trans (congrArg Outcome.ends hfailed), hframe⟩

/-! ## How deep recipes are served within each other -/

/-- The depth that no 32-bit number follows. -/
def deepest : UInt32 := 4294967295

/-- Below the deepest depth the next one is greater. -/
theorem toNat_add_one {limit depth : UInt32} (hmost : limit < deepest) (hle : depth ≤ limit) :
    (depth + 1).toNat = depth.toNat + 1 := by
  have hsucc : (depth + 1).toNat = (depth.toNat + 1) % 4294967296 := UInt32.toNat_add depth 1
  have hbelow : limit.toNat < 4294967295 := UInt32.lt_iff_toNat_lt.1 hmost
  have hdepth : depth.toNat ≤ limit.toNat := UInt32.le_iff_toNat_le.1 hle
  omega

theorem lt_add_one_iff {limit depth : UInt32} (hlimit : limit ≠ 0) :
    depth + 1 > limit ↔ limit ≤ depth ∧ depth ≠ deepest := by
  have hne : limit.toNat ≠ 0 := fun h => hlimit (UInt32.toNat_inj.1 h)
  have hlt := depth.toNat_lt
  have hdeepest : depth = deepest ↔ depth.toNat = 4294967295 := by
    rw [← UInt32.toNat_inj]
    rfl
  have hadd : (depth + 1).toNat = (depth.toNat + 1) % 4294967296 := UInt32.toNat_add depth 1
  rw [gt_iff_lt, UInt32.lt_iff_toNat_lt, UInt32.le_iff_toNat_le, ne_eq, hdeepest, hadd]
  omega

section

variable {p : Program} {limit depth : UInt32} {i : Instruction} {f : Frame} {k : Kitchen}
  {recipe : Recipe}

/-- A recipe that is served with is cooked if and only if the depth is below the
limit or no 32-bit number follows it, which makes the recipe a main one.
Otherwise the recipe that asked is given up with nothing changed, whatever the
other one would do. -/
theorem served_iff_below_limit (hlimit : limit ≠ 0) (ha : i.action = .serveWith)
    (hr : p.find? i.name = some recipe) :
    ((∀ fuel cook, step p limit fuel cook depth i f k =
        .ofCooked f (cook (depth + 1) (f.servedWith recipe) k)) ↔
      depth < limit ∨ depth = deepest) ∧
    ((∀ fuel cook, step p limit fuel cook depth i f k =
        { outcome := .ends (.failed { recipe := f.recipe.name, cause := .tooDeep })
          frame := f
          kitchen := k }) ↔
      limit ≤ depth ∧ depth ≠ deepest) ∧
    RunError.Cause.message .tooDeep = "Too many recipes served within each other" := by
  have hstep (fuel : Nat) (cook : Cook) : step p limit fuel cook depth i f k =
      if limit ≤ depth ∧ depth ≠ deepest then .fail f k .tooDeep
      else .ofCooked f (cook (depth + 1) (f.servedWith recipe) k) := by
    rw [step_serveWith ha hr]
    simp only [lt_add_one_iff hlimit, hlimit, ne_eq, not_false_eq_true, true_and]
  have hbelow : depth < limit ∨ depth = deepest ↔ ¬ (limit ≤ depth ∧ depth ≠ deepest) := by
    rw [← UInt32.not_le, Decidable.not_and_iff_not_or_not, Decidable.not_not]
  -- a recipe that comes to its end tells the two apart
  have hdiffer : Turn.fail f k .tooDeep ≠
      .ofCooked f { ending := .done, frame := f, kitchen := k } := by
    intro heq
    have houtcome := congrArg Turn.outcome heq
    simp [Turn.fail, Turn.ofCooked, Turn.goOn] at houtcome
  refine ⟨?_, ?_, rfl⟩
  · rw [hbelow]
    constructor
    · intro hcooks hdeep
      have heq := hcooks 0 fun _ _ _ => { ending := .done, frame := f, kitchen := k }
      rw [hstep, if_pos hdeep] at heq
      exact hdiffer heq
    · intro hshallow fuel cook
      rw [hstep, if_neg hshallow]
  · constructor
    · intro hfails
      refine Decidable.byContradiction fun hshallow => ?_
      have heq := hfails 0 fun _ _ _ => { ending := .done, frame := f, kitchen := k }
      rw [hstep, if_neg hshallow] at heq
      exact hdiffer heq.symm
    · intro hdeep fuel cook
      rw [hstep, if_pos hdeep]
      rfl

end

/-- A recipe that is served with itself is cooked at depth 2 and not at depth 3
if the limit is 3. -/
theorem served_iff_below_limit_three :
    let asks : Instruction := { action := .serveWith, name := "stock" }
    let stock : Recipe := { name := "Stock", instructions := [asks] }
    let p := Program.ofRecipes "Stock" [stock]
    let f := Frame.ofRecipe stock
    let k := Kitchen.prepare .empty 0
    (∀ cook, step p 3 9 cook 2 asks f k = .ofCooked f (cook 3 (f.servedWith stock) k)) ∧
      ∀ cook, (step p 3 9 cook 3 asks f k).outcome =
        .ends (.failed { recipe := "Stock", cause := .tooDeep }) := by
  intro asks stock p f k
  have hr : p.find? asks.name = some stock := by decide
  have hlimit : (3 : UInt32) ≠ 0 := by decide
  constructor
  · exact (served_iff_below_limit (f := f) (k := k) hlimit rfl hr).1.2 (.inl (by decide)) 9
  · intro cook
    rw [(served_iff_below_limit (f := f) (k := k) hlimit rfl hr).2.1.2 ⟨by decide, by decide⟩ 9
      cook]
    rfl

/-- Past a limit of 1 a recipe is served with another, which counts as a main
recipe and serves its dish. -/
theorem served_past_limit :
    let asks : Instruction := { action := .serveWith, name := "Relish" }
    let roast : Recipe := { name := "Roast", instructions := [asks] }
    let relish : Recipe :=
      { name := "Relish", ingredients := [{ name := "plum", value := some 72, kind := .liquid }]
        instructions := [{ action := .put, ingredient := "plum" }, { action := .pour },
          { action := .serve, count := some 1 }] }
    let p := Program.ofRecipes "Roast" [roast, relish]
    let turn := p.turn 1 9 deepest asks (Frame.ofRecipe roast) (Kitchen.prepare .empty 0)
    ¬ deepest < 1 ∧ turn.outcome = .goesOn ∧ turn.kitchen.served.toList = Text.ofString "H" := by
  decide +kernel

end Cookbook
