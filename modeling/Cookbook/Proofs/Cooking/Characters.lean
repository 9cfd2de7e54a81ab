import Cookbook.Proofs.Cooking.Structured
import Cookbook.Proofs.Text.Utf8

/-!
# Cookbook.Proofs.Cooking.Characters

Cooking a text.  A liquid value is served as the character with its number, and
the bytes are those of its UTF-8 form (`Value.serving?_ofChar`).  Ingredients
that are put into a bowl one after the other lie there with the last one on top
(`cookFrom_puts`), and a dish that is poured from the bowl is served from the top
down.  So a recipe that puts the characters of a text from the last to the first
serves the text (`run_text`).
-/

namespace Cookbook

open Text

/-! ## Characters -/

namespace Text

theorem ofString_ofList (cs : List Char) :
    ofString (String.ofList cs) = cs.flatMap String.utf8EncodeChar := by
  rw [ofString, String.toUTF8, String.toByteArray_ofList, List.utf8Encode]
  simp

end Text

namespace Value

/-- The value that is served as a character. -/
def ofChar (c : Char) : Value := { number := Int64.ofNat c.toNat, liquid := true }

theorem toInt_number_ofChar (c : Char) : (ofChar c).number.toInt = c.toNat :=
  CodePoint.toInt_ofChar c

theorem serving?_ofChar (c : Char) : (ofChar c).serving? = some (String.utf8EncodeChar c) := by
  have hliquid : (ofChar c).liquid = true := rfl
  rw [serving?, if_pos hliquid]
  exact CodePoint.encode?_ofChar c

end Value

/-- Values that stand for characters are served as the text. -/
theorem Served.values_map_ofChar (written : Array UInt8) (cs : List Char) :
    Served.values written (cs.map Value.ofChar) =
      (written ++ ofString (String.ofList cs), [], none) := by
  rw [ofString_ofList]
  induction cs generalizing written with
  | nil => simp [Served.values]
  | cons c cs ih =>
    have happend : written ++ String.utf8EncodeChar c ++ cs.flatMap String.utf8EncodeChar =
        written ++ (String.utf8EncodeChar c ++ cs.flatMap String.utf8EncodeChar) :=
      Array.toList_inj.1 (by simp)
    rw [List.map_cons, Served.values, Value.serving?_ofChar]
    simp only [ih, List.flatMap_cons, happend]

/-- A single dish is served without a line feed. -/
theorem Served.firstDishes_one {dishes : Shelf UInt32 Stack} {written written' : Array UInt8}
    {dish : Stack} (hdish : dishes.get? 1 = some dish)
    (hvalues : Served.values written dish.items = (written', [], none)) :
    Served.firstDishes dishes written 1 =
      { dishes := dishes.insert 1 { items := [] }, written := written' } := by
  have hcount : min (1 : Int64).toInt.toNat (UInt32.size - 1) = 1 := by decide
  rw [Served.firstDishes, hcount, Served.dishesFrom, if_neg (by decide)]
  have hone : UInt32.ofNat 1 = 1 := rfl
  simp only [hone, hdish, hvalues, Served.dishesFrom]

/-! ## Putting, pouring and serving -/

/-- Whether a statement puts a value into the first bowl. -/
structure Instruction.Puts (ingredients : Shelf Text Binding) (i : Instruction) (v : Value) :
    Prop where
  action : i.action = .put
  bowl : i.bowl = 1
  value : (ingredients.get? i.ingredient).map (·.value) = some v

/-- Whether some values, the first one first, are put into the first bowl of a
frame by as many statements. -/
structure Frame.Stacks (f : Frame) (vs : List Value) (f' : Frame) : Prop where
  recipe : f'.recipe = f.recipe
  ingredients : f'.ingredients = f.ingredients
  dishes : f'.dishes = f.dishes
  bowl : f'.bowl 1 = { items := vs.reverse ++ (f.bowl 1).items }
  ip : f'.ip = f.ip + vs.length

theorem Frame.Stacks.cons {f f₁ f' : Frame} {v : Value} {vs : List Value} (h₁ : f.Stacks [v] f₁)
    (h : f₁.Stacks vs f') : f.Stacks (v :: vs) f' where
  recipe := h.recipe.trans h₁.recipe
  ingredients := h.ingredients.trans h₁.ingredients
  dishes := h.dishes.trans h₁.dishes
  bowl := by rw [h.bowl, h₁.bowl]; simp
  ip := by rw [h.ip, h₁.ip]; simp; omega

section

variable {p : Program} {limit depth : UInt32} {fuel : Nat} {f : Frame} {k : Kitchen}
  {i : Instruction}

theorem turn_put {v : Value} (h : i.Puts f.ingredients v) :
    ∃ f₁, f.Stacks [v] f₁ ∧ ∀ (p : Program) (limit depth : UInt32) (fuel : Nat) (k : Kitchen),
      p.turn limit fuel depth i f k = .goOn f₁ k := by
  obtain ⟨b, hb, rfl⟩ := Option.map_eq_some_iff.1 h.value
  have hget : (f.reachBowl 1).ingredient i.ingredient = .ok b := by
    have hb' : (f.reachBowl 1).ingredients.get? i.ingredient = some b := hb
    rw [Frame.ingredient, hb']
  have hput : f.put i = { frame := (f.reachBowl 1).setBowl 1 ((f.bowl 1).push b.value) } := by
    simp only [Frame.put, h.bowl, hget, Frame.bowl_reachBowl]
  refine ⟨((f.reachBowl 1).setBowl 1 ((f.bowl 1).push b.value)).advance,
    ⟨rfl, rfl, rfl, Frame.bowl_setBowl_self _ _ _, rfl⟩, fun p limit depth fuel k => ?_⟩
  simp only [Program.turn, step, tryStep, h.action, hput, Trial.ofAttempt, Trial.caught_ok]

/-- Ingredients that are put into a bowl one after the other lie there one above
the other. -/
theorem cookFrom_puts {js rest : List Instruction} {vs : List Value}
    (hjs : List.Forall₂ (Instruction.Puts f.ingredients) js vs)
    (hrest : f.recipe.instructions.drop f.ip = js ++ rest) :
    ∃ f', f.Stacks vs f' ∧ f'.recipe.instructions.drop f'.ip = rest ∧
      ∀ (p : Program) (limit depth : UInt32) (fuel : Nat) (k : Kitchen),
        cookFrom p limit (fuel + js.length) depth f k = cookFrom p limit fuel depth f' k := by
  generalize hs : f.ingredients = s at hjs
  induction hjs generalizing f with
  | nil => exact ⟨f, ⟨rfl, rfl, rfl, rfl, rfl⟩, hrest, fun _ _ _ _ _ => rfl⟩
  | @cons j v js vs hj _ ih =>
    obtain ⟨f₁, h₁, hturn⟩ := turn_put (hs ▸ hj)
    have hget : f.recipe.instructions[f.ip]? = some j := by
      rw [← List.head?_drop, hrest, List.cons_append, List.head?_cons]
    have hrest₁ : f₁.recipe.instructions.drop f₁.ip = js ++ rest := by
      rw [h₁.recipe, h₁.ip, List.length_singleton, ← List.tail_drop, hrest, List.cons_append,
        List.tail_cons]
    obtain ⟨f', h', hrest', hcook⟩ := ih hrest₁ (h₁.ingredients.trans hs)
    refine ⟨f', h₁.cons h', hrest', fun p limit depth fuel k => ?_⟩
    rw [List.length_cons, ← Nat.add_assoc, cookFrom_of_turn_goOn hget (hturn _ _ _ _ _), hcook]

/-- A dish that is poured from a bowl is served from the top down. -/
theorem cookFrom_pour_serve {pour serve : Instruction} {cs : List Char}
    (hbowl : f.bowl 1 = { items := cs.map Value.ofChar }) (hdishes : f.dishes = .empty)
    (hpour : pour.action = .pour ∧ pour.bowl = 1 ∧ pour.dish = 1)
    (hserve : serve.action = .serve ∧ serve.count = some 1)
    (hrest : f.recipe.instructions.drop f.ip = [pour, serve]) :
    ∃ f', cookFrom p limit (fuel + 3) 0 f k =
      { ending := .done
        frame := f'
        kitchen := { k with served := k.served ++ ofString (String.ofList cs) } } := by
  have hdish : (f.pour 1 1).dishes.get? 1 = some { items := cs.map Value.ofChar } := by
    have hempty : (f.reachBowl 1).dish 1 = .empty := by
      simp [Frame.dish, Frame.reachBowl, hdishes]
    rw [Frame.pour, Frame.bowl_reachBowl, hbowl, hempty]
    simp [Frame.setDish, Stack.pour, Stack.empty]
  have hserved := Served.firstDishes_one hdish (Served.values_map_ofChar k.served cs)
  have hget₁ : f.recipe.instructions[f.ip]? = some pour := by
    rw [← List.head?_drop, hrest, List.head?_cons]
  have hrest₁ : f.recipe.instructions.drop (f.ip + 1) = [serve] := by
    rw [← List.tail_drop, hrest, List.tail_cons]
  have hget₂ : (f.pour 1 1).advance.recipe.instructions[(f.pour 1 1).advance.ip]? = some serve := by
    rw [← List.head?_drop]
    exact congrArg List.head? hrest₁
  have hturn₁ : p.turn limit (fuel + 2) 0 pour f k = .goOn (f.pour 1 1).advance k := by
    simp only [Program.turn, step, tryStep, hpour, Trial.caught_ok]
  have hturn₂ : p.turn limit (fuel + 1) 0 serve (f.pour 1 1).advance k =
      .goOn
        { (f.pour 1 1).advance with
          dishes := (f.pour 1 1).dishes.insert 1 { items := [] } }.advance
        { k with served := k.served ++ ofString (String.ofList cs) } := by
    have hkept : (f.pour 1 1).advance.dishes = (f.pour 1 1).dishes := rfl
    simp only [Program.turn, step, tryStep, hserve, if_true, Option.getD_some, serveStep, hkept,
      hserved, Trial.caught_ok]
  have hget₃ : f.recipe.instructions[f.ip + 1 + 1]? = none := by
    rw [← List.head?_drop, ← List.tail_drop, hrest₁]
    rfl
  rw [cookFrom_of_turn_goOn hget₁ hturn₁, cookFrom_of_turn_goOn hget₂ hturn₂, cookFrom_of_none]
  · exact ⟨_, rfl⟩
  · exact hget₃

/-- A recipe that puts the characters of a text into a bowl from the last to the
first, pours the bowl into a dish and serves it, serves the text. -/
theorem run_text {r : Recipe} {puts : List Instruction} {pour serve : Instruction}
    {cs : List Char} (hmain : p.mainRecipe? = some r) (hr : r.instructions = puts ++ [pour, serve])
    (hputs : List.Forall₂ (Instruction.Puts (Frame.declare r.ingredients)) puts
      (cs.map Value.ofChar).reverse)
    (hpour : pour.action = .pour ∧ pour.bowl = 1 ∧ pour.dish = 1)
    (hserve : serve.action = .serve ∧ serve.count = some 1) :
    p.run limit (fuel + 3 + puts.length) k =
      (.done, { k with served := k.served ++ ofString (String.ofList cs) }) := by
  obtain ⟨f, hstacks, hrest, hcook⟩ := cookFrom_puts (f := (Frame.ofRecipe r).jump 0) hputs hr
  have hbowl : f.bowl 1 = { items := cs.map Value.ofChar } := by
    rw [hstacks.bowl, List.reverse_reverse]
    simp [Frame.ofRecipe, Frame.jump, Frame.bowl, Stack.empty]
  obtain ⟨f', hend⟩ : ∃ f', cookFrom p limit (fuel + 3) 0 f k = _ :=
    cookFrom_pour_serve hbowl hstacks.dishes hpour hserve hrest
  simp only [Program.run, hmain, Program.cook, hcook, hend]

end

end Cookbook
