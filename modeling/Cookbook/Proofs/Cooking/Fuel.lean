import Cookbook.Cooking

/-!
# Cookbook.Proofs.Cooking.Fuel

Fuel decides whether there is a result, and never which one.  With more of it a
shuffle that came to an end draws the same numbers (`Twister.shuffle_mono`), a
statement does the same (`step_mono`), and a recipe that did not starve ends in
the same way (`cookFrom_mono`).  So a recipe has at most one result whatever the
fuel (`cookFrom_unique`), and a program at most one ending (`Program.Ends`).
-/

namespace Cookbook

/-! ## Shuffling -/

namespace Twister

theorem wordBelow_mono {n fuel fuel' : Nat} {g : Twister} {r : Nat × Twister} (hle : fuel ≤ fuel')
    (h : wordBelow n fuel g = some r) : wordBelow n fuel' g = some r := by
  induction fuel generalizing fuel' g with
  | zero => simp [wordBelow] at h
  | succ fuel ih =>
    obtain ⟨m, rfl⟩ : ∃ m, fuel' = m + 1 := ⟨fuel' - 1, by omega⟩
    rw [wordBelow] at h ⊢
    by_cases hredraw : g.next.1.toNat * n % UInt32.size < (UInt32.size - n) % n
    · simp only [hredraw, if_true] at h ⊢
      exact ih (by omega) h
    · simp only [hredraw, if_false] at h ⊢
      exact h

theorem wideBelow_mono {n fuel fuel' : Nat} {g : Twister} {r : Nat × Twister} (hle : fuel ≤ fuel')
    (h : wideBelow n fuel g = some r) : wideBelow n fuel' g = some r := by
  induction fuel generalizing fuel' g with
  | zero => simp [wideBelow] at h
  | succ fuel ih =>
    obtain ⟨m, rfl⟩ : ∃ m, fuel' = m + 1 := ⟨fuel' - 1, by omega⟩
    rw [wideBelow] at h ⊢
    cases hupper : wordBelow ((n - 1) / UInt32.size + 1) fuel g with
    | none => simp [hupper] at h
    | some upper =>
      simp only [hupper] at h
      simp only [wordBelow_mono (Nat.le_of_succ_le_succ hle) hupper]
      split at h
      · next hlt => rw [if_pos hlt, h]
      · next hlt => rw [if_neg hlt, ih (Nat.le_of_succ_le_succ hle) h]

theorem below_mono {n fuel fuel' : Nat} {g : Twister} {r : Nat × Twister} (hle : fuel ≤ fuel')
    (h : below n fuel g = some r) : below n fuel' g = some r := by
  unfold below at h ⊢
  split at h
  · next hn => rw [if_pos hn, wordBelow_mono hle h]
  · next hn => rw [if_neg hn, wideBelow_mono hle h]

theorem exchangeEach_mono {fuel fuel' count i : Nat} {items : Array α} {g : Twister}
    {r : Array α × Twister} (hle : fuel ≤ fuel') (h : exchangeEach fuel count i items g = some r) :
    exchangeEach fuel' count i items g = some r := by
  induction count generalizing i items g with
  | zero => exact h
  | succ count ih =>
    rw [exchangeEach] at h ⊢
    cases hb : below (i + 1) fuel g with
    | none => simp [hb] at h
    | some drawn =>
      simp only [hb] at h
      simp only [below_mono hle hb]
      exact ih h

theorem exchangePairs_mono {fuel fuel' count i : Nat} {items : Array α} {g : Twister}
    {r : Array α × Twister} (hle : fuel ≤ fuel') (h : exchangePairs fuel count i items g = some r) :
    exchangePairs fuel' count i items g = some r := by
  induction count generalizing i items g with
  | zero => exact h
  | succ count ih =>
    rw [exchangePairs] at h ⊢
    cases hb : below ((i + 1) * (i + 2)) fuel g with
    | none => simp [hb] at h
    | some drawn =>
      simp only [hb] at h
      simp only [below_mono hle hb]
      exact ih h

theorem shuffle_mono {fuel fuel' : Nat} {items : Array α} {g : Twister} {r : Array α × Twister}
    (hle : fuel ≤ fuel') (h : shuffle fuel items g = some r) : shuffle fuel' items g = some r := by
  unfold shuffle at h ⊢
  by_cases hfew : items.size < 2
  · simpa only [hfew, if_true] using h
  simp only [hfew, if_false] at h ⊢
  by_cases hpaired : items.size * items.size < UInt32.size
  · simp only [hpaired, if_true] at h ⊢
    by_cases heven : items.size % 2 = 0
    · simp only [heven, if_true] at h ⊢
      cases he : exchangeEach fuel 1 1 items g with
      | none => simp [he] at h
      | some first =>
        simp only [he] at h
        simp only [exchangeEach_mono hle he]
        exact exchangePairs_mono hle h
    · simp only [heven, if_false] at h ⊢
      exact exchangePairs_mono hle h
  · simp only [hpaired, if_false] at h ⊢
    exact exchangeEach_mono hle h

end Twister

theorem Stack.shuffle_mono {fuel fuel' : Nat} {s : Stack} {g : Twister} {r : Stack × Twister}
    (hle : fuel ≤ fuel') (h : s.shuffle fuel g = some r) : s.shuffle fuel' g = some r := by
  unfold Stack.shuffle at h ⊢
  obtain ⟨shuffled, hs, hr⟩ := Option.map_eq_some_iff.1 h
  rw [Twister.shuffle_mono hle hs, Option.map_some, hr]

/-! ## Statements -/

/-- Whether a way to cook gives every result that another gives. -/
def Cook.Extends (cook' cook : Cook) : Prop :=
  ∀ depth f k, (cook depth f k).ending ≠ .starved → cook' depth f k = cook depth f k

section

variable {p : Program} {limit depth : UInt32} {fuel fuel' : Nat} {cook cook' : Cook}
  {i : Instruction} {f : Frame} {k : Kitchen}

theorem mixStep_mono (hle : fuel ≤ fuel') (h : (mixStep fuel i f k).outcome ≠ .ends .starved) :
    mixStep fuel' i f k = mixStep fuel i f k := by
  unfold mixStep at h ⊢
  cases hs : (f.bowl i.bowl).shuffle fuel k.shuffler with
  | none => simp [hs] at h
  | some shuffled => rw [Stack.shuffle_mono hle hs]

theorem serveWithStep_mono (hext : cook'.Extends cook)
    (h : (serveWithStep p limit cook depth i f k).outcome ≠ .ends .starved) :
    serveWithStep p limit cook' depth i f k = serveWithStep p limit cook depth i f k := by
  unfold serveWithStep at h ⊢
  cases hfind : p.find? i.name with
  | none => rfl
  | some recipe =>
    by_cases hdeep : limit ≠ 0 ∧ depth + 1 > limit
    · simp only [if_pos hdeep]
    · simp only [hfind, if_neg hdeep] at h ⊢
      have hfed : (cook (depth + 1) { Frame.ofRecipe recipe with bowls := f.bowls } k).ending ≠
          .starved := by
        intro hstarved
        simp [hstarved] at h
      rw [hext _ _ _ hfed]

/-- A statement that does not starve does the same with more fuel. -/
theorem step_mono (hle : fuel ≤ fuel') (hext : cook'.Extends cook)
    (h : (step p limit fuel cook depth i f k).outcome ≠ .ends .starved) :
    step p limit fuel' cook' depth i f k = step p limit fuel cook depth i f k := by
  unfold step tryStep at h ⊢
  cases ha : i.action <;> simp only [ha, Trial.caught_ok] at h ⊢
  case mix => exact mixStep_mono hle h
  case serveWith => exact serveWithStep_mono hext h

/-! ### How statements end recipes -/

/-- Whether a statement with an action may end its recipe so: any may fail, only
refrigerating stops, and only a shuffle or another recipe can starve. -/
def Action.MayEnd (a : Action) : Ending → Prop
  | .done => a = .refrigerate
  | .failed _ => True
  | .starved => a = .mix ∨ a = .serveWith

section

variable {a : Action} {e : Ending}

theorem mayEnd_goOn (h : (Turn.goOn f k).outcome = .ends e) : a.MayEnd e := by cases h

theorem mayEnd_fail {cause : RunError.Cause} (h : (Turn.fail f k cause).outcome = .ends e) :
    a.MayEnd e := by
  cases h
  trivial

theorem mayEnd_ofAttempt {attempt : Attempt}
    (h : ((Trial.ofAttempt attempt k).caught i.location).outcome = .ends e) : a.MayEnd e := by
  rw [Trial.caught_ofAttempt] at h
  split at h
  · exact mayEnd_goOn h
  · exact mayEnd_fail h

theorem mayEnd_takeStep (h : ((takeStep i f k).caught i.location).outcome = .ends e) :
    a.MayEnd e := by
  unfold takeStep at h
  split at h
  · exact mayEnd_fail h
  · simp only at h
    split at h
    · exact mayEnd_goOn h
    · exact mayEnd_fail h

theorem mayEnd_mixStep (h : (mixStep fuel i f k).outcome = .ends e) : Action.mix.MayEnd e := by
  unfold mixStep at h
  split at h
  · cases h
    exact .inl rfl
  · exact mayEnd_goOn h

theorem mayEnd_loopStartStep (h : ((loopStartStep i f k).caught i.location).outcome = .ends e) :
    a.MayEnd e := by
  unfold loopStartStep at h
  split at h
  · exact mayEnd_fail h
  · exact mayEnd_goOn h

theorem mayEnd_loopEndStep (h : ((loopEndStep i f k).caught i.location).outcome = .ends e) :
    a.MayEnd e := by
  unfold loopEndStep at h
  split at h
  · exact mayEnd_goOn h
  · split at h
    · exact mayEnd_fail h
    · exact mayEnd_goOn h

theorem mayEnd_serveStep {count : Int64} {next : Frame → Kitchen → Turn}
    (hnext : ∀ f k, (next f k).outcome = .ends e → a.MayEnd e)
    (h : (serveStep count f k next).outcome = .ends e) : a.MayEnd e := by
  unfold serveStep at h
  simp only at h
  split at h
  · exact mayEnd_fail h
  · exact hnext _ _ h

theorem mayEnd_refrigerateStep (h : (refrigerateStep depth i f k).outcome = .ends e) :
    Action.refrigerate.MayEnd e := by
  have hstop : Outcome.ends .done = .ends e → Action.refrigerate.MayEnd e := by
    intro hdone
    cases hdone
    rfl
  unfold refrigerateStep at h
  split at h
  · split at h
    · exact mayEnd_serveStep (fun _ _ => hstop) h
    · exact hstop h
  · exact hstop h

theorem mayEnd_serveWithStep (h : (serveWithStep p limit cook depth i f k).outcome = .ends e) :
    Action.serveWith.MayEnd e := by
  unfold serveWithStep at h
  split at h
  · exact mayEnd_fail h
  · split at h
    · exact mayEnd_fail h
    · simp only at h
      split at h
      · exact mayEnd_goOn h
      · next hne =>
        cases h
        cases hending : (cook (depth + 1) _ k).ending with
        | done => exact absurd hending hne
        | failed e => trivial
        | starved => exact .inr rfl

/-- A statement ends its recipe only as its action may. -/
theorem mayEnd_step (h : (step p limit fuel cook depth i f k).outcome = .ends e) :
    i.action.MayEnd e := by
  unfold step tryStep at h
  cases ha : i.action <;> simp only [ha, Trial.caught_ok] at h
  case take => exact mayEnd_takeStep h
  case mix => exact mayEnd_mixStep h
  case pour | setAside => exact mayEnd_goOn h
  case loopStart => exact mayEnd_loopStartStep h
  case loopEnd => exact mayEnd_loopEndStep h
  case serveWith => exact mayEnd_serveWithStep h
  case refrigerate => exact mayEnd_refrigerateStep h
  case serve =>
    split at h
    · exact mayEnd_serveStep (fun _ _ => mayEnd_goOn) h
    · exact mayEnd_goOn h
  all_goals exact mayEnd_ofAttempt h

end

end

/-! ## Recipes -/

namespace Program

/-- Carries out one statement, cooking what it serves with on the same fuel. -/
def turn (p : Program) (limit : UInt32) (fuel : Nat) (depth : UInt32) (i : Instruction) (f : Frame)
    (k : Kitchen) : Turn :=
  step p limit fuel (cookFrom p limit fuel) depth i f k

end Program

section

variable {p : Program} {limit depth : UInt32} {fuel fuel' : Nat} {i : Instruction} {f : Frame}
  {k : Kitchen}

/-- A recipe that has come to its end. -/
theorem cookFrom_of_none (hi : f.recipe.instructions[f.ip]? = none) :
    cookFrom p limit (fuel + 1) depth f k = { ending := .done, frame := f, kitchen := k } := by
  rw [cookFrom, hi]

/-- A statement after which the recipe goes on. -/
theorem cookFrom_of_goesOn (hi : f.recipe.instructions[f.ip]? = some i)
    (ho : (p.turn limit fuel depth i f k).outcome = .goesOn) :
    cookFrom p limit (fuel + 1) depth f k =
      cookFrom p limit fuel depth (p.turn limit fuel depth i f k).frame
        (p.turn limit fuel depth i f k).kitchen := by
  unfold Program.turn at ho ⊢
  simp only [cookFrom, hi, ho]

/-- A statement that ends the recipe. -/
theorem cookFrom_of_ends {e : Ending} (hi : f.recipe.instructions[f.ip]? = some i)
    (ho : (p.turn limit fuel depth i f k).outcome = .ends e) :
    cookFrom p limit (fuel + 1) depth f k =
      { ending := e
        frame := (p.turn limit fuel depth i f k).frame
        kitchen := (p.turn limit fuel depth i f k).kitchen } := by
  unfold Program.turn at ho ⊢
  simp only [cookFrom, hi, ho]

/-- What holds of a recipe that starved or has come to its end, and of a statement
that ends it, and is carried back over a statement after which it goes on, holds
however long a recipe is cooked. -/
@[elab_as_elim] theorem cookFrom_induction (p : Program) (limit depth : UInt32)
    {motive : Nat → Frame → Kitchen → Prop} (fuel : Nat) (f : Frame) (k : Kitchen)
    (starved : ∀ f k, motive 0 f k)
    (finished : ∀ fuel f k, f.recipe.instructions[f.ip]? = none → motive (fuel + 1) f k)
    (goesOn : ∀ fuel f k i, f.recipe.instructions[f.ip]? = some i →
      (p.turn limit fuel depth i f k).outcome = .goesOn →
      motive fuel (p.turn limit fuel depth i f k).frame (p.turn limit fuel depth i f k).kitchen →
      motive (fuel + 1) f k)
    (ends : ∀ fuel f k i e, f.recipe.instructions[f.ip]? = some i →
      (p.turn limit fuel depth i f k).outcome = .ends e → motive (fuel + 1) f k) :
    motive fuel f k := by
  induction fuel generalizing f k with
  | zero => exact starved f k
  | succ fuel ih =>
    cases hi : f.recipe.instructions[f.ip]? with
    | none => exact finished fuel f k hi
    | some i =>
      cases ho : (p.turn limit fuel depth i f k).outcome with
      | goesOn => exact goesOn fuel f k i hi ho (ih _ _)
      | ends e => exact ends fuel f k i e hi ho

theorem cookFrom_extends (hle : fuel ≤ fuel') :
    (cookFrom p limit fuel').Extends (cookFrom p limit fuel) := by
  induction fuel generalizing fuel' with
  | zero =>
    intro depth f k h
    simp [cookFrom] at h
  | succ fuel ih =>
    obtain ⟨m, rfl⟩ : ∃ m, fuel' = m + 1 := ⟨fuel' - 1, by omega⟩
    have hle' : fuel ≤ m := Nat.le_of_succ_le_succ hle
    intro depth f k h
    cases hi : f.recipe.instructions[f.ip]? with
    | none => rw [cookFrom_of_none hi, cookFrom_of_none hi]
    | some i =>
      have hsame (hfed : (p.turn limit fuel depth i f k).outcome ≠ .ends .starved) :
          p.turn limit m depth i f k = p.turn limit fuel depth i f k :=
        step_mono hle' (ih hle') hfed
      cases ho : (p.turn limit fuel depth i f k).outcome with
      | ends e =>
        rw [cookFrom_of_ends hi ho] at h ⊢
        have hturn := hsame (by simpa [ho] using h)
        rw [cookFrom_of_ends hi (hturn ▸ ho), hturn]
      | goesOn =>
        rw [cookFrom_of_goesOn hi ho] at h ⊢
        have hturn := hsame (by simp [ho])
        rw [cookFrom_of_goesOn hi (hturn ▸ ho), hturn]
        exact ih hle' _ _ _ h

/-- A recipe that does not starve ends in the same way with more fuel. -/
theorem cookFrom_mono (hle : fuel ≤ fuel')
    (h : (cookFrom p limit fuel depth f k).ending ≠ .starved) :
    cookFrom p limit fuel' depth f k = cookFrom p limit fuel depth f k :=
  cookFrom_extends hle depth f k h

/-- Two results of a recipe are the same. -/
theorem cookFrom_unique (h : (cookFrom p limit fuel depth f k).ending ≠ .starved)
    (h' : (cookFrom p limit fuel' depth f k).ending ≠ .starved) :
    cookFrom p limit fuel depth f k = cookFrom p limit fuel' depth f k := by
  rcases Nat.le_total fuel fuel' with hle | hle
  · exact (cookFrom_mono hle h).symm
  · exact cookFrom_mono hle h'

/-- A statement that does not starve does the same with more fuel, whatever it
serves with. -/
theorem turn_mono (hle : fuel ≤ fuel')
    (h : (p.turn limit fuel depth i f k).outcome ≠ .ends .starved) :
    p.turn limit fuel' depth i f k = p.turn limit fuel depth i f k :=
  step_mono hle (cookFrom_extends hle) h

end

/-! ## Runs that end -/

namespace Program

variable {p : Program} {limit : UInt32} {k k' : Kitchen} {fuel fuel' : Nat} {ending : Ending}

/-- Whether cooking a program ends, how it ends and what it leaves. -/
structure Ends (p : Program) (limit : UInt32) (k : Kitchen) (ending : Ending) (k' : Kitchen) :
    Prop where
  fed : ending ≠ .starved
  run : ∃ fuel, p.run limit fuel k = (ending, k')

/-- A program that does not starve ends in the same way with more fuel. -/
theorem run_mono (hle : fuel ≤ fuel') (h : (p.run limit fuel k).1 ≠ .starved) :
    p.run limit fuel' k = p.run limit fuel k := by
  unfold run at h ⊢
  cases hmain : p.mainRecipe? with
  | none => rfl
  | some main =>
    simp only [hmain] at h ⊢
    rw [cook, cook, cookFrom_mono hle h]

/-- A program ends in one way only. -/
theorem Ends.unique {ending' : Ending} {k'' : Kitchen} (h : p.Ends limit k ending k')
    (h' : p.Ends limit k ending' k'') : ending = ending' ∧ k' = k'' := by
  obtain ⟨fuel, hrun⟩ := h.run
  obtain ⟨fuel', hrun'⟩ := h'.run
  have hmax := run_mono (Nat.le_max_left fuel fuel') (by rw [hrun]; exact h.fed)
  have hmax' := run_mono (Nat.le_max_right fuel fuel') (by rw [hrun']; exact h'.fed)
  rw [← Prod.mk.injEq, ← hrun, ← hrun', ← hmax, ← hmax']

end Program

end Cookbook
