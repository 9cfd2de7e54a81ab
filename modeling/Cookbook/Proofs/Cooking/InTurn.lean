import Cookbook.Proofs.Cooking.Places

/-!
# Cookbook.Proofs.Cooking.InTurn

Cooking a method that is put together from two is cooking them in turn.  As
long as the first has statements left, the whole does what the first does
alone (`cookFrom_of_ranThrough`, `cookFrom_of_not_ranThrough`), and from the
seam on it does what the second does alone, a number of statements further on
(`cookFrom_shifted`).  The first cannot jump beyond the seam, as its targets
are its own statements (`ip_cookFrom_le`).
-/

namespace Cookbook

/-! ## Cooking two methods in turn -/

/-- The same state of a recipe with another method. -/
def Frame.withMethod (f : Frame) (method : List Instruction) : Frame :=
  f.withRecipe { f.recipe with instructions := method }

namespace Cooked

/-- Whether a recipe was cooked to its end, rather than stopped or given up. -/
def RanThrough (c : Cooked) : Prop :=
  c.ending = .done ∧ c.frame.recipe.instructions[c.frame.ip]? = none

instance (c : Cooked) : Decidable c.RanThrough :=
  inferInstanceAs (Decidable (_ ∧ _))

/-- Whether two recipes ended alike, whatever their methods. -/
structure SameOutcome (c c' : Cooked) : Prop where
  ending : c.ending = c'.ending
  bowls : c.frame.bowls = c'.frame.bowls
  dishes : c.frame.dishes = c'.frame.dishes
  ingredients : c.frame.ingredients = c'.frame.ingredients
  ip : c.frame.ip = c'.frame.ip
  kitchen : c.kitchen = c'.kitchen

end Cooked

/-- Cooks one method and, if it runs to its end, another on what it leaves.  The
statements of the second are counted on from those of the first. -/
def Program.cookInTurn (p : Program) (limit : UInt32) (fuel : Nat)
    (first second : List Instruction) : Cook := fun depth f k =>
  let cooked := p.cook limit fuel depth (f.withMethod first) k
  if cooked.RanThrough then
    let rest := p.cook limit fuel depth (cooked.frame.withMethod second) cooked.kitchen
    { rest with frame := rest.frame.jump (rest.frame.ip + first.length) }
  else cooked

/-! ## Behind the seam -/

section

variable {p : Program} {limit depth : UInt32} {fuel : Nat} {f : Frame} {k : Kitchen} {r : Recipe}

/-- Behind other statements a method is cooked as it is cooked alone. -/
theorem cookFrom_shifted {before : List Instruction} (hname : r.name = f.recipe.name)
    (hcode : r.instructions =
      before ++ f.recipe.instructions.map (Instruction.retarget before.length)) :
    cookFrom p limit fuel depth (f.shifted r before.length) k =
      (cookFrom p limit fuel depth f k).shifted r before.length := by
  have hget (f : Frame) : r.instructions =
        before ++ f.recipe.instructions.map (Instruction.retarget before.length) →
      (f.shifted r before.length).recipe.instructions[(f.shifted r before.length).ip]? =
        f.recipe.instructions[f.ip]?.map (Instruction.retarget before.length) := by
    intro hcode
    show r.instructions[f.ip + before.length]? = _
    rw [hcode, List.getElem?_append_right (Nat.le_add_left _ _), Nat.add_sub_cancel,
      List.getElem?_map]
  induction fuel, f, k using cookFrom_induction p limit depth with
  | starved f k => rfl
  | finished fuel f k hi =>
    have hi' := hget f hcode
    rw [hi] at hi'
    rw [cookFrom_of_none hi', cookFrom_of_none hi]
    rfl
  | goesOn fuel f k i hi ho ih =>
    have hi' := hget f hcode
    rw [hi] at hi'
    have hturn : p.turn limit fuel depth (i.retarget before.length) (f.shifted r before.length) k =
        (p.turn limit fuel depth i f k).shifted r before.length := step_shifted hname
    rw [cookFrom_of_goesOn hi' (by rw [hturn]; exact ho), cookFrom_of_goesOn hi ho, hturn]
    exact ih (by rw [recipe_turn]; exact hname) (by rw [recipe_turn]; exact hcode)
  | ends fuel f k i e hi ho =>
    have hi' := hget f hcode
    rw [hi] at hi'
    have hturn : p.turn limit fuel depth (i.retarget before.length) (f.shifted r before.length) k =
        (p.turn limit fuel depth i f k).shifted r before.length := step_shifted hname
    rw [cookFrom_of_ends hi' (by rw [hturn]; exact ho), cookFrom_of_ends hi ho, hturn]
    rfl

end

/-! ## Up to the seam -/

section

variable {p : Program} {limit depth : UInt32} {fuel : Nat} {i : Instruction} {f : Frame}
  {k : Kitchen}

theorem recipe_cookFrom : (cookFrom p limit fuel depth f k).frame.recipe = f.recipe := by
  induction fuel, f, k using cookFrom_induction p limit depth with
  | starved f k => rfl
  | finished fuel f k hi => rw [cookFrom_of_none hi]
  | goesOn fuel f k i hi ho ih => rw [cookFrom_of_goesOn hi ho, ih, recipe_turn]
  | ends fuel f k i e hi ho =>
    rw [cookFrom_of_ends hi ho]
    exact recipe_turn

/-- Whether all targets of a method are statements of its own. -/
def Loops.Inside (method : List Instruction) : Prop :=
  ∀ i ∈ method, IsTargeted i.action → i.target < method.length

/-- A statement comes no further than behind the last one. -/
theorem ip_turn_le (hin : Loops.Inside f.recipe.instructions)
    (hi : f.recipe.instructions[f.ip]? = some i) :
    (p.turn limit fuel depth i f k).frame.ip ≤ f.recipe.instructions.length := by
  obtain ⟨hlt, -⟩ := List.getElem?_eq_some_iff.1 hi
  by_cases hjump : Loops.IsTargeted i.action
  · have htarget := hin i (List.mem_of_getElem? hi) hjump
    unfold Program.turn step tryStep
    rcases hjump with ha | ha | ha <;> simp only [ha, Trial.caught_ok]
    · unfold loopStartStep
      cases f.ingredient i.ingredient with
      | error what => exact Nat.le_of_lt hlt
      | ok b =>
        by_cases hzero : b.value.number = 0
        · simp only [if_pos hzero]
          exact htarget
        · simp only [if_neg hzero]
          exact hlt
    · unfold loopEndStep
      split
      · exact Nat.le_of_lt htarget
      · cases f.ingredient i.ingredient with
        | error what => exact Nat.le_of_lt hlt
        | ok b => exact Nat.le_of_lt htarget
    · exact htarget
  · have hself : p.turn limit fuel depth i f k =
        (p.turn limit fuel depth i f k).moved f.recipe f.ip := step_eq_moved hjump
    rw [hself]
    show (if _ then f.ip + 1 else f.ip) ≤ _
    split
    · exact hlt
    · exact Nat.le_of_lt hlt

theorem ip_cookFrom_le {m : List Instruction} (hm : f.recipe.instructions = m)
    (hin : Loops.Inside m) (hip : f.ip ≤ m.length) :
    (cookFrom p limit fuel depth f k).frame.ip ≤ m.length := by
  induction fuel, f, k using cookFrom_induction p limit depth with
  | starved f k => exact hip
  | finished fuel f k hi =>
    rw [cookFrom_of_none hi]
    exact hip
  | goesOn fuel f k i hi ho ih =>
    rw [cookFrom_of_goesOn hi ho]
    subst hm
    exact ih (by rw [recipe_turn]) (ip_turn_le hin hi)
  | ends fuel f k i e hi ho =>
    rw [cookFrom_of_ends hi ho]
    subst hm
    exact ip_turn_le hin hi

/-- Behind a method that ran to its end nothing is left of it. -/
theorem ip_of_ranThrough {m : List Instruction} (hm : f.recipe.instructions = m)
    (hin : Loops.Inside m) (hip : f.ip ≤ m.length)
    (h : (cookFrom p limit fuel depth f k).RanThrough) :
    (cookFrom p limit fuel depth f k).frame.ip = m.length := by
  have hle : (cookFrom p limit fuel depth f k).frame.ip ≤ m.length := ip_cookFrom_le hm hin hip
  have hend := h.2
  rw [recipe_cookFrom, hm, List.getElem?_eq_none_iff] at hend
  exact Nat.le_antisymm hle hend

/-! ## Stopping -/

/-- Only refrigerating stops a recipe that has statements left. -/
theorem action_of_turn_done (h : (p.turn limit fuel depth i f k).outcome = .ends .done) :
    i.action = .refrigerate :=
  mayEnd_step h

theorem ip_of_turn_done (h : (p.turn limit fuel depth i f k).outcome = .ends .done) :
    (p.turn limit fuel depth i f k).frame.ip = f.ip := by
  have hjump : ¬ Loops.IsTargeted i.action := by
    simp [Loops.IsTargeted, action_of_turn_done h]
  have hself : p.turn limit fuel depth i f k =
      (p.turn limit fuel depth i f k).moved f.recipe f.ip := step_eq_moved hjump
  rw [hself, Turn.moved, if_neg (by simp [h])]
  rfl

/-- A recipe that is done has come to its end, or to a statement that stops
it. -/
theorem ranThrough_or_refrigerated (h : (cookFrom p limit fuel depth f k).ending = .done) :
    (cookFrom p limit fuel depth f k).RanThrough ∨
      ∃ i, Loops.StandsAt f.recipe.instructions (cookFrom p limit fuel depth f k).frame.ip
        .refrigerate i := by
  induction fuel, f, k using cookFrom_induction p limit depth with
  | starved f k => cases h
  | finished fuel f k hi =>
    rw [cookFrom_of_none hi]
    exact .inl ⟨rfl, hi⟩
  | goesOn fuel f k i hi ho ih =>
    rw [cookFrom_of_goesOn hi ho] at h ⊢
    have hrest := ih h
    rwa [recipe_turn] at hrest
  | ends fuel f k i e hi ho =>
    rw [cookFrom_of_ends hi ho] at h ⊢
    obtain rfl : e = .done := h
    exact .inr ⟨i, by rw [ip_of_turn_done ho]; exact hi, action_of_turn_done ho⟩

/-! ## Across the seam -/

section

variable {r : Recipe} {rest : List Instruction}

theorem turn_withRecipe (hname : r.name = f.recipe.name) :
    p.turn limit fuel depth i (f.withRecipe r) k = (p.turn limit fuel depth i f k).withRecipe r :=
  step_withRecipe hname

/-- As long as a method has statements left, what stands behind it does not
matter. -/
theorem getElem?_withRecipe (hcode : r.instructions = f.recipe.instructions ++ rest)
    (hi : f.recipe.instructions[f.ip]? = some i) :
    (f.withRecipe r).recipe.instructions[(f.withRecipe r).ip]? = some i := by
  obtain ⟨hlt, -⟩ := List.getElem?_eq_some_iff.1 hi
  show r.instructions[f.ip]? = some i
  rw [hcode, List.getElem?_append_left hlt, hi]

/-- A method that does not run to its end ends the whole. -/
theorem cookFrom_of_not_ranThrough (hname : r.name = f.recipe.name)
    (hcode : r.instructions = f.recipe.instructions ++ rest)
    (h : ¬ (cookFrom p limit fuel depth f k).RanThrough) :
    cookFrom p limit fuel depth (f.withRecipe r) k =
      (cookFrom p limit fuel depth f k).withRecipe r := by
  induction fuel, f, k using cookFrom_induction p limit depth with
  | starved f k => rfl
  | finished fuel f k hi =>
    rw [cookFrom_of_none hi] at h
    exact absurd ⟨rfl, hi⟩ h
  | goesOn fuel f k i hi ho ih =>
    have hturn : p.turn limit fuel depth i (f.withRecipe r) k =
        (p.turn limit fuel depth i f k).withRecipe r := turn_withRecipe hname
    rw [cookFrom_of_goesOn hi ho] at h ⊢
    rw [cookFrom_of_goesOn (getElem?_withRecipe hcode hi) (by rw [hturn]; exact ho), hturn]
    exact ih (by rw [recipe_turn, hname]) (by rw [recipe_turn, hcode]) h
  | ends fuel f k i e hi ho =>
    have hturn : p.turn limit fuel depth i (f.withRecipe r) k =
        (p.turn limit fuel depth i f k).withRecipe r := turn_withRecipe hname
    rw [cookFrom_of_ends (getElem?_withRecipe hcode hi) (by rw [hturn]; exact ho),
      cookFrom_of_ends hi ho, hturn]
    rfl

/-- A method that runs to its end uses up some of the fuel, and the rest is left
for what stands behind it. -/
theorem cookFrom_of_ranThrough (hname : r.name = f.recipe.name)
    (hcode : r.instructions = f.recipe.instructions ++ rest)
    (h : (cookFrom p limit fuel depth f k).RanThrough) :
    ∃ used ≤ fuel, ∀ fuel' ≥ fuel,
      cookFrom p limit fuel' depth (f.withRecipe r) k =
        cookFrom p limit (fuel' - used) depth
          ((cookFrom p limit fuel depth f k).frame.withRecipe r)
          (cookFrom p limit fuel depth f k).kitchen := by
  induction fuel, f, k using cookFrom_induction p limit depth with
  | starved f k => cases h.1
  | finished fuel f k hi =>
    rw [cookFrom_of_none hi]
    exact ⟨0, Nat.zero_le _, fun fuel' _ => rfl⟩
  | goesOn fuel f k i hi ho ih =>
    rw [cookFrom_of_goesOn hi ho] at h ⊢
    obtain ⟨used, hused, hseam⟩ :=
      ih (by rw [recipe_turn, hname]) (by rw [recipe_turn, hcode]) h
    refine ⟨used + 1, Nat.succ_le_succ hused, fun fuel' hle => ?_⟩
    obtain ⟨m, rfl⟩ : ∃ m, fuel' = m + 1 := ⟨fuel' - 1, by omega⟩
    have hmore : fuel ≤ m := Nat.le_of_succ_le_succ hle
    have hturn : p.turn limit m depth i (f.withRecipe r) k =
        (p.turn limit fuel depth i f k).withRecipe r := by
      rw [turn_withRecipe hname, turn_mono hmore (by simp [ho])]
    rw [cookFrom_of_goesOn (getElem?_withRecipe hcode hi) (by rw [hturn]; exact ho), hturn,
      Nat.succ_sub_succ]
    exact hseam m hmore
  | ends fuel f k i e hi ho =>
    -- a statement that ends the recipe is still there
    rw [cookFrom_of_ends hi ho] at h
    obtain rfl : e = .done := h.1
    have hend : (p.turn limit fuel depth i f k).frame.recipe.instructions[
      (p.turn limit fuel depth i f k).frame.ip]? = none := h.2
    rw [recipe_turn, ip_of_turn_done ho, hi] at hend
    cases hend

end

end

/-! ## Two methods -/

theorem Loops.inside_of_resolve {m m' : List Instruction} (h : resolve m = .ok m') : Inside m' := by
  intro i hi ha
  obtain ⟨n, hn⟩ := List.mem_iff_getElem?.1 hi
  exact (resolved_of_resolve h).target_lt n i.action i ⟨hn, rfl⟩ ha

/-- Positions are counted without a bound, but in a resolved method of fewer than
`2 ^ 64` statements every position that cooking can come to, and the one behind
every target, is an unsigned 64-bit number. -/
theorem position_lt_of_resolve {p : Program} {limit depth : UInt32} {fuel : Nat} {f : Frame}
    {k : Kitchen} {m : List Instruction} (h : Loops.resolve m = .ok f.recipe.instructions)
    (hsize : f.recipe.instructions.length < UInt64.size) :
    (∀ i ∈ f.recipe.instructions, Loops.IsTargeted i.action → i.target + 1 < UInt64.size) ∧
      (p.cook limit fuel depth f k).frame.ip < UInt64.size := by
  have hin := Loops.inside_of_resolve h
  constructor
  · intro i hi ha
    exact Nat.lt_of_le_of_lt (hin i hi ha) hsize
  · have hle : (p.cook limit fuel depth f k).frame.ip ≤ f.recipe.instructions.length :=
      ip_cookFrom_le (f := f.jump 0) rfl hin (Nat.zero_le _)
    exact Nat.lt_of_le_of_lt hle hsize

/-- Two methods one behind the other. -/
def Loops.joined (a b : List Instruction) : List Instruction :=
  a ++ b.map (Instruction.retarget a.length)

theorem Cooked.sameOutcome_withRecipe (c : Cooked) (r : Recipe) : (c.withRecipe r).SameOutcome c :=
  ⟨rfl, rfl, rfl, rfl, rfl, rfl⟩

section

variable {p : Program} {limit depth : UInt32} {fuel : Nat} {a b : List Instruction} {f : Frame}
  {k : Kitchen}

theorem cookInTurn_of_ranThrough (h : (p.cook limit fuel depth (f.withMethod a) k).RanThrough) :
    p.cookInTurn limit fuel a b depth f k =
      let cooked := p.cook limit fuel depth (f.withMethod a) k
      let rest := p.cook limit fuel depth (cooked.frame.withMethod b) cooked.kitchen
      { rest with frame := rest.frame.jump (rest.frame.ip + a.length) } := by
  simp only [Program.cookInTurn, if_pos h]

theorem cookInTurn_of_not_ranThrough
    (h : ¬ (p.cook limit fuel depth (f.withMethod a) k).RanThrough) :
    p.cookInTurn limit fuel a b depth f k = p.cook limit fuel depth (f.withMethod a) k := by
  simp only [Program.cookInTurn, if_neg h]

/-- If the first method runs to its end, the whole does what the second does
with the fuel that is left. -/
theorem cook_joined_of_ranThrough (hin : Loops.Inside a)
    (h : (p.cook limit fuel depth (f.withMethod a) k).RanThrough) :
    let cooked := p.cook limit fuel depth (f.withMethod a) k
    ∃ used ≤ fuel, ∀ fuel' ≥ fuel,
      p.cook limit fuel' depth (f.withMethod (Loops.joined a b)) k =
        (p.cook limit (fuel' - used) depth (cooked.frame.withMethod b) cooked.kitchen).shifted
          { f.recipe with instructions := Loops.joined a b } a.length := by
  intro cooked
  let r : Recipe := { f.recipe with instructions := Loops.joined a b }
  have hip : cooked.frame.ip = a.length :=
    ip_of_ranThrough (f := (f.withMethod a).jump 0) rfl hin (Nat.zero_le _) h
  have hseam : cooked.frame.withRecipe r =
      ((cooked.frame.withMethod b).jump 0).shifted r a.length := by
    unfold Frame.shifted Frame.moved Frame.withRecipe
    rw [hip, Frame.ip_jump, Nat.zero_add]
    rfl
  have hname : r.name = ((cooked.frame.withMethod b).jump 0).recipe.name := by
    show f.recipe.name = cooked.frame.recipe.name
    rw [show cooked.frame.recipe = _ from recipe_cookFrom]
    rfl
  obtain ⟨used, hused, hwhole⟩ :=
    cookFrom_of_ranThrough (f := (f.withMethod a).jump 0) (r := r) rfl rfl h
  refine ⟨used, hused, fun fuel' hle => ?_⟩
  calc p.cook limit fuel' depth (f.withMethod (Loops.joined a b)) k
      = cookFrom p limit (fuel' - used) depth (cooked.frame.withRecipe r) cooked.kitchen :=
        hwhole fuel' hle
    _ = cookFrom p limit (fuel' - used) depth
          (((cooked.frame.withMethod b).jump 0).shifted r a.length) cooked.kitchen := by rw [hseam]
    _ = (p.cook limit (fuel' - used) depth (cooked.frame.withMethod b) cooked.kitchen).shifted r
          a.length := cookFrom_shifted hname rfl

/-- If the first method does not run to its end, the whole does what it does. -/
theorem cook_joined_of_not_ranThrough
    (h : ¬ (p.cook limit fuel depth (f.withMethod a) k).RanThrough) :
    p.cook limit fuel depth (f.withMethod (Loops.joined a b)) k =
      (p.cook limit fuel depth (f.withMethod a) k).withRecipe
        { f.recipe with instructions := Loops.joined a b } :=
  cookFrom_of_not_ranThrough (f := (f.withMethod a).jump 0) rfl rfl h

/-- As long as the whole does not starve, neither do its parts. -/
theorem cookInTurn_fed (hin : Loops.Inside a)
    (h : (p.cook limit fuel depth (f.withMethod (Loops.joined a b)) k).ending ≠ .starved) :
    (p.cookInTurn limit fuel a b depth f k).ending ≠ .starved := by
  by_cases hran : (p.cook limit fuel depth (f.withMethod a) k).RanThrough
  · obtain ⟨used, -, hwhole⟩ := cook_joined_of_ranThrough (b := b) hin hran
    rw [hwhole fuel (Nat.le_refl _)] at h
    have hrest := cookFrom_mono (Nat.sub_le fuel used) h
    rw [cookInTurn_of_ranThrough hran]
    show (cookFrom p limit fuel depth _ _).ending ≠ _
    rw [hrest]
    exact h
  · rw [cook_joined_of_not_ranThrough hran] at h
    rw [cookInTurn_of_not_ranThrough hran]
    exact h

/-- The whole gets wherever its parts get in turn. -/
theorem exists_cook_joined_eq (fuel : Nat) (b : List Instruction) (hin : Loops.Inside a) :
    ∃ fuel', p.cook limit fuel' depth (f.withMethod (Loops.joined a b)) k =
      (p.cookInTurn limit fuel a b depth f k).withRecipe
        { f.recipe with instructions := Loops.joined a b } := by
  by_cases hran : (p.cook limit fuel depth (f.withMethod a) k).RanThrough
  · obtain ⟨used, hused, hwhole⟩ := cook_joined_of_ranThrough (b := b) hin hran
    rw [cookInTurn_of_ranThrough hran]
    refine ⟨fuel + used, ?_⟩
    rw [hwhole _ (Nat.le_add_right _ _), Nat.add_sub_cancel]
    rfl
  · exact ⟨fuel, by rw [cook_joined_of_not_ranThrough hran, cookInTurn_of_not_ranThrough hran]⟩

end

/-- Cooking composes.  If the loops of two methods can be paired, so can those of
the one behind the other, where only the targets of the second are moved on.
Cooking them so ends if and only if cooking them in turn does, and with the same
outcome; the second is cooked if the first came to its end, which it does unless
it is given up or stopped by refrigerating. -/
theorem cook_append {a b a' b' : List Instruction} (ha : Loops.resolve a = .ok a')
    (hb : Loops.resolve b = .ok b') :
    let code := a' ++ b'.map (Instruction.retarget a.length)
    Loops.resolve (a ++ b) = .ok code ∧
      ∀ (p : Program) (limit depth : UInt32) (f : Frame) (k : Kitchen),
        let first (fuel : Nat) := p.cook limit fuel depth (f.withMethod a') k
        let whole (fuel : Nat) := p.cook limit fuel depth (f.withMethod code) k
        let inTurn (fuel : Nat) := p.cookInTurn limit fuel a' b' depth f k
        ((∃ fuel, (whole fuel).ending ≠ .starved) ↔ ∃ fuel, (inTurn fuel).ending ≠ .starved) ∧
          (∀ fuel fuel', (whole fuel).ending ≠ .starved → (inTurn fuel').ending ≠ .starved →
            (whole fuel).SameOutcome (inTurn fuel')) ∧
          ∀ fuel, (first fuel).ending = .done →
            (first fuel).RanThrough ∧ (first fuel).frame.ip = a'.length ∨
              ∃ i, Loops.StandsAt a' (first fuel).frame.ip .refrigerate i := by
  intro code
  refine ⟨Loops.resolve_append ha hb, fun p limit depth f k => ?_⟩
  intro first whole inTurn
  have hin := Loops.inside_of_resolve ha
  have hcode : code = Loops.joined a' b' := by
    rw [Loops.joined, (Loops.resolved_of_resolve ha).length_eq]
  have hwhole (fuel : Nat) :
      whole fuel = p.cook limit fuel depth (f.withMethod (Loops.joined a' b')) k := by
    simp only [whole, hcode]
  refine ⟨⟨?_, ?_⟩, ?_, ?_⟩
  · rintro ⟨fuel, hfed⟩
    rw [hwhole] at hfed
    exact ⟨fuel, cookInTurn_fed hin hfed⟩
  · rintro ⟨fuel, hfed⟩
    obtain ⟨fuel', heq⟩ := exists_cook_joined_eq fuel b' hin
    exact ⟨fuel', by rw [hwhole, heq]; exact hfed⟩
  · intro fuel fuel' hfed hfed'
    obtain ⟨m, heq⟩ := exists_cook_joined_eq fuel' b' hin
    have hm : (whole m).ending ≠ .starved := by
      rw [hwhole, heq]
      exact hfed'
    have hsame : whole fuel = whole m := cookFrom_unique hfed hm
    rw [hsame, hwhole, heq]
    exact Cooked.sameOutcome_withRecipe _ _
  · intro fuel hdone
    refine (ranThrough_or_refrigerated hdone).imp_left fun hran => ⟨hran, ?_⟩
    exact ip_of_ranThrough (f := (f.withMethod a').jump 0) rfl hin (Nat.zero_le _) hran

/-- Loops that cross, one of which is left for the seam, and behind it a loop that
is stopped from within. -/
theorem cook_append_crossing :
    let first : List Instruction :=
      [{ action := .loopStart, name := "Sift", ingredient := "salt" },
        { action := .loopStart, name := "Bake", ingredient := "oil" }, { action := .setAside },
        { action := .loopEnd, keyword := "sifted", ingredient := "salt" },
        { action := .loopEnd, keyword := "baked", ingredient := "oil" }]
    let first' : List Instruction :=
      [{ action := .loopStart, name := "Sift", keyword := "sifted", ingredient := "salt"
         target := 3 },
        { action := .loopStart, name := "Bake", keyword := "baked", ingredient := "oil"
          target := 4 },
        { action := .setAside, target := 4 },
        { action := .loopEnd, keyword := "sifted", ingredient := "salt" },
        { action := .loopEnd, keyword := "baked", ingredient := "oil", target := 1 }]
    let second : List Instruction :=
      [{ action := .put, ingredient := "oil" },
        { action := .loopStart, name := "Beat", ingredient := "salt" }, { action := .refrigerate },
        { action := .loopEnd, keyword := "beated" }]
    let second' : List Instruction :=
      [{ action := .put, ingredient := "oil" },
        { action := .loopStart, name := "Beat", keyword := "beated", ingredient := "salt"
          target := 3 },
        { action := .refrigerate }, { action := .loopEnd, keyword := "beated", target := 1 }]
    let p := Program.ofRecipes "Stew" []
    let f := Frame.ofRecipe
      { name := "Stew"
        ingredients := [{ name := "salt", value := some 7 }, { name := "oil", value := some 3 }] }
    let k := Kitchen.prepare .empty 0
    let code := first' ++ second'.map (Instruction.retarget 5)
    Loops.resolve first = .ok first' ∧ Loops.resolve second = .ok second' ∧
      Loops.resolve (first ++ second) = .ok code ∧
      (p.cook 0 9 0 (f.withMethod first') k).RanThrough ∧
      (p.cook 0 9 0 (f.withMethod code) k).SameOutcome
        (p.cookInTurn 0 9 first' second' 0 f k) ∧
      (p.cook 0 9 0 (f.withMethod code) k).frame.ip = 7 := by
  intro first first' second second' p f k code
  have hfirst : Loops.resolve first = .ok first' := by decide
  have hsecond : Loops.resolve second = .ok second' := by decide
  obtain ⟨hresolve, hcook⟩ := cook_append hfirst hsecond
  have hwhole : (p.cook 0 9 0 (f.withMethod code) k).ending ≠ .starved := by decide +kernel
  have hinTurn : (p.cookInTurn 0 9 first' second' 0 f k).ending ≠ .starved := by decide +kernel
  have hsame := (hcook p 0 0 f k).2.1 9 9 hwhole hinTurn
  have hip : (p.cookInTurn 0 9 first' second' 0 f k).frame.ip = 7 := by decide +kernel
  exact ⟨hfirst, hsecond, hresolve, by decide +kernel, hsame, hsame.ip.trans hip⟩

end Cookbook
