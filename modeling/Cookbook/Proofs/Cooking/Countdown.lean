import Cookbook.Proofs.Cooking.Footprint
import Cookbook.Proofs.Cooking.Structured

/-!
# Cookbook.Proofs.Cooking.Countdown

Loops that count down.  If nothing in the body of a loop gives its ingredient
another number, then the ingredient goes down by one from round to round, and the
loop ends when it comes to 0, after as many rounds as its number says, read as an
unsigned one (`paths_of_rounds`).  What is left is what carrying out the body and
counting down that often leaves (`Program.Rounds`).
-/

namespace Cookbook

/-! ## The numbers of ingredients -/

/-- The number of an ingredient. -/
def Frame.number? (f : Frame) (x : Text) : Option Int64 :=
  (f.ingredients.get? x).map (·.value.number)

/-- Whether a statement is none of a loop, does not stop the recipe and puts no
other value into an ingredient. -/
structure Instruction.Steady (x : Text) (i : Instruction) : Prop where
  plain : ¬ Loops.IsTargeted i.action
  stays : i.action ≠ .refrigerate
  keeps : i.action = .take ∨ i.action = .fold → i.ingredient ≠ x

namespace Frame

variable {f : Frame} {i : Instruction} {x : Text}

theorem number?_setValue {name : Text} {b : Binding} {v : Value}
    (hb : f.ingredients.get? name = some b) :
    (f.setValue name v).number? name = some v.number := by
  simp [setValue, hb, number?]

/-- What is made liquid keeps its number. -/
theorem number?_liquefy : (f.liquefy i).frame.number? x = f.number? x := by
  by_cases hx : i.ingredient = x
  · subst hx
    unfold liquefy
    cases hb : f.ingredient i.ingredient with
    | error what => rfl
    | ok b =>
      have hget := ingredient_eq_ok_iff.1 hb
      rw [number?_setValue hget, number?, hget]
      rfl
  · rw [number?, get?_liquefy hx, number?]

end Frame

/-- A statement that puts nothing into an ingredient leaves its number. -/
theorem number?_step {p : Program} {limit depth : UInt32} {fuel : Nat} {cook : Cook}
    {i : Instruction} {f : Frame} {k : Kitchen} {x : Text} (h : i.Steady x) :
    (step p limit fuel cook depth i f k).frame.number? x = f.number? x := by
  by_cases hliquefy : i.action = .liquefy
  · have hstep : step p limit fuel cook depth i f k =
        (Trial.ofAttempt (f.liquefy i) k).caught i.location := by
      unfold step tryStep
      rw [hliquefy]
    rw [hstep, Frame.number?, ingredients_ofAttempt]
    exact Frame.number?_liquefy
  · have hwrites : ¬ i.Writes x := by
      rintro ⟨hwrites, -, hx, -⟩
      have htargeted := h.plain
      have hkeeps := h.keeps
      cases ha : i.action <;> simp_all [Action.writesIngredient, Loops.IsTargeted]
    rw [Frame.number?, get?_ingredients_step hwrites, Frame.number?]

/-! ## Rounds -/

/-- Carries out statements one after the other, until one ends the recipe. -/
def Program.carryOut (p : Program) (limit : UInt32) (fuel : Nat) (depth : UInt32) :
    List Instruction → Frame → Kitchen → Turn
  | [], f, k => .goOn f k
  | i :: rest, f, k =>
    let turn := p.turn limit fuel depth i f k
    match turn.outcome with
    | .goesOn => carryOut p limit fuel depth rest turn.frame turn.kitchen
    | .ends _ => turn

/-- Whether a turn ends, and without an error. -/
def Turn.Succeeds (t : Turn) : Prop := t.outcome = .goesOn ∨ t.outcome = .ends .done

/-- What carrying out the body of a loop and then counting an ingredient down, for
a number of times, makes of a state. -/
inductive Program.Rounds (p : Program) (limit depth : UInt32) (body : List Instruction)
    (x : Text) : Nat → Frame → Kitchen → Frame → Kitchen → Prop
  | none {f : Frame} {k : Kitchen} : Rounds p limit depth body x 0 f k f k
  | more {n fuel : Nat} {f f₁ f₂ : Frame} {k k₁ k₂ : Kitchen} {b : Binding}
    (before : Rounds p limit depth body x n f k f₁ k₁)
    (carried : p.carryOut limit fuel depth body f₁ k₁ = .goOn f₂ k₂)
    (binding : f₂.ingredients.get? x = some b) :
    Rounds p limit depth body x (n + 1) f k
      (f₂.setValue x { b.value with number := b.value.number - 1 }) k₂

/-- Where a move is made, and which number an ingredient has then. -/
def Move.sight (x : Text) (m : Move) : Nat × Option Int64 := (m.frame.ip, m.frame.number? x)

section

variable {p : Program} {limit depth : UInt32} {fuel n : Nat} {is body : List Instruction}
  {f : Frame} {k : Kitchen} {x : Text} {ends : LoopEnds} {v : Int64}

/-- Statements in a row that do not fail are carried out one by one, with the
same number in the ingredient all along. -/
theorem path_of_carryOut (his : ∀ i ∈ is, i.Steady x)
    (hcode : is <+: f.recipe.instructions.drop n)
    (h : (p.carryOut limit fuel depth is f k).Succeeds) :
    ∃ f' k' ms, p.carryOut limit fuel depth is f k = .goOn f' k' ∧
      p.Path limit depth (f.jump n) k ms (f'.jump (n + is.length)) k' ∧
      ms.map (Move.sight x) = (List.range' n is.length).map (·, f.number? x) ∧
      f'.number? x = f.number? x ∧ f'.recipe = f.recipe := by
  induction is generalizing f k n with
  | nil => exact ⟨f, k, [], rfl, .stay, rfl, rfl, rfl⟩
  | cons i is ih =>
    obtain ⟨hi, his⟩ := List.forall_mem_cons.1 his
    obtain ⟨hget, hrest⟩ := getElem?_of_cons_isPrefix hcode
    rw [Program.carryOut] at h ⊢
    cases ho : (p.turn limit fuel depth i f k).outcome with
    | ends e =>
      simp only [ho, Turn.Succeeds, Outcome.ends.injEq, reduceCtorEq, false_or] at h
      exact absurd (mayEnd_step (ho.trans (congrArg _ h))) hi.stays
    | goesOn =>
      simp only [ho] at h ⊢
      have hnumber : (p.turn limit fuel depth i f k).frame.number? x = f.number? x :=
        number?_step hi
      obtain ⟨f', k', ms, hcarry, hpath, hsight, hnumber', hrecipe⟩ :=
        ih his (recipe_turn (p := p) ▸ hrest) h
      have hlength : n + 1 + is.length = n + (i :: is).length := by
        rw [List.length_cons]
        omega
      rw [hlength] at hpath
      have hpath' := Program.Path.go (f := f.jump n) hget (turn_eq_goOn hi.plain ho) hpath
      refine ⟨f', k', _, hcarry, hpath', ?_, hnumber'.trans hnumber, hrecipe.trans recipe_turn⟩
      rw [List.map_cons, hsight, hnumber]
      rfl

/-! ## Loops -/

/-- Whether a loop goes round by an ingredient and counts it down. -/
structure LoopEnds.Counts (ends : LoopEnds) (x : Text) : Prop where
  start : ends.start.ingredient = x
  stop : ends.stop.ingredient = x
  named : x ≠ []

/-- A method that is one loop, with its statements paired. -/
def LoopEnds.around (ends : LoopEnds) (body : List Instruction) : List Instruction :=
  ends.startTo (body.length + 1) :: (body ++ [ends.stopTo 0])

theorem resolve_around (h : ∀ i ∈ body, ¬ Loops.IsTargeted i.action) :
    Loops.resolve (ends.start :: (body ++ [ends.stop])) = .ok (ends.around body) := by
  obtain ⟨b, hflatten, hlayout⟩ : ∃ b : Block true, b.flatten = body ∧ _ :=
    Block.exists_flatten_of_plain h
  have hresolve := (Block.loop ends b .done : Block false).resolve_flatten
  have hsize : b.size = body.length := congrArg List.length hflatten
  rw [Block.flatten, Block.layout, hflatten, hlayout, hsize, Nat.add_comm (0 + 1)] at hresolve
  exact hresolve

theorem exists_binding (h : f.number? x = some v) :
    ∃ b, f.ingredients.get? x = some b ∧ b.value.number = v :=
  Option.map_eq_some_iff.1 h

theorem countDown_stop {b : Binding} (hcounts : ends.Counts x)
    (hb : f.ingredients.get? x = some b) :
    f.countDown ends.stop =
      .ok (f.setValue x { b.value with number := b.value.number - 1 }) := by
  have hnamed : x.isEmpty = false := by simpa using hcounts.named
  rw [Frame.countDown, hcounts.stop, hnamed, Frame.ingredient_eq_ok_iff.2 hb]
  rfl

/-- As long as the ingredient is not 0, a loop goes round once more. -/
theorem path_round (hcode : f.recipe.instructions = ends.around body) (hcounts : ends.Counts x)
    (hsteady : ∀ i ∈ body, i.Steady x) (hv : f.number? x = some v) (hne : v ≠ 0)
    (h : (p.carryOut limit fuel depth body f k).Succeeds) :
    ∃ f₂ k₂ b ms, p.carryOut limit fuel depth body f k = .goOn f₂ k₂ ∧
      f₂.ingredients.get? x = some b ∧ b.value.number = v ∧ f₂.recipe = f.recipe ∧
      p.Path limit depth (f.jump 0) k ms
        ((f₂.setValue x { b.value with number := b.value.number - 1 }).jump 0) k₂ ∧
      ms.map (Move.sight x) = (List.range (body.length + 2)).map (·, some v) := by
  obtain ⟨a, ha, rfl⟩ := exists_binding hv
  have hstart : f.recipe.instructions[0]? = some (ends.startTo (body.length + 1)) := by
    rw [hcode]
    rfl
  have hbody : body <+: f.recipe.instructions.drop 1 := by
    rw [hcode]
    exact List.prefix_append body [ends.stopTo 0]
  have hstop : f.recipe.instructions[1 + body.length]? = some (ends.stopTo 0) := by
    rw [Nat.add_comm 1, hcode, LoopEnds.around, List.getElem?_cons_succ,
      List.getElem?_append_right (Nat.le_refl _), Nat.sub_self]
    rfl
  obtain ⟨f₂, k₂, ms, hcarry, hpath, hsight, hnumber, hrecipe⟩ :=
    path_of_carryOut hsteady hbody h
  obtain ⟨b, hb, hbv⟩ := exists_binding (hnumber.trans hv)
  have hnumber₀ : (f.jump 0).number? x = some a.value.number := hv
  have hnumber₂ : (f₂.jump (1 + body.length)).number? x = some a.value.number := hnumber.trans hv
  have henter : p.turn limit 0 depth (ends.startTo (body.length + 1)) (f.jump 0) k =
      .goOn (f.jump 1) k :=
    turn_startTo_of_ne_zero (hcounts.start ▸ Frame.ingredient_eq_ok_iff.2 ha) hne
  have hagain : p.turn limit 0 depth (ends.stopTo 0) (f₂.jump (1 + body.length)) k₂ = .goOn _ k₂ :=
    turn_stopTo_of_ok (countDown_stop hcounts hb)
  have hrange : List.range (body.length + 2) =
      0 :: (List.range' 1 body.length ++ [1 + body.length]) := by
    rw [List.range_eq_range', List.range'_succ, Nat.zero_add, List.range'_1_concat]
  refine ⟨f₂, k₂, b, _, hcarry, hb, hbv, hrecipe,
    .go (f := f.jump 0) hstart henter (hpath.append (.go (hrecipe ▸ hstop) hagain .stay)), ?_⟩
  simp [Move.sight, hsight, hnumber₀, hnumber₂, hv, hrange]

/-! ## Counting down -/

theorem toNat_toUInt64 (v : Int64) :
    v.toUInt64.toNat = (if 0 ≤ v.toInt then v.toInt else UInt64.size + v.toInt).toNat := by
  have hsigned : v.toInt = if 2 * v.toUInt64.toNat < UInt64.size then (v.toUInt64.toNat : Int)
      else (v.toUInt64.toNat : Int) - UInt64.size := BitVec.toInt_eq_toNat_cond v.toBitVec
  have hlt : v.toUInt64.toNat < UInt64.size := v.toUInt64.toNat_lt
  split at hsigned <;> split <;> omega

/-- Counted down as often as it says, a number comes to 0, and no sooner. -/
theorem sub_ofNat_eq_zero_iff (h : n ≤ v.toUInt64.toNat) :
    v - Int64.ofNat n = 0 ↔ n = v.toUInt64.toNat := by
  have hlt : v.toUInt64.toNat < UInt64.size := v.toUInt64.toNat_lt
  have hv : v.toBitVec.toNat = v.toUInt64.toNat := rfl
  have hn : (Int64.ofNat n).toBitVec.toNat = n % UInt64.size := rfl
  rw [Int64.sub_eq_iff_eq_add, Int64.zero_add, ← Int64.toBitVec_inj, ← BitVec.toNat_inj, hv, hn,
    Nat.mod_eq_of_lt (by omega), eq_comm]

/-- As long as it has not come to 0, a loop goes round as often as one likes. -/
theorem path_rounds (hcode : f.recipe.instructions = ends.around body) (hcounts : ends.Counts x)
    (hsteady : ∀ i ∈ body, i.Steady x) (hv : f.number? x = some v)
    (hbody : ∀ m < v.toUInt64.toNat, ∀ f₁ k₁, p.Rounds limit depth body x m f k f₁ k₁ →
      ∃ fuel, (p.carryOut limit fuel depth body f₁ k₁).Succeeds) (hn : n ≤ v.toUInt64.toNat) :
    ∃ f' k' ms, p.Rounds limit depth body x n f k f' k' ∧
      p.Path limit depth (f.jump 0) k ms (f'.jump 0) k' ∧ f'.recipe = f.recipe ∧
      f'.number? x = some (v - Int64.ofNat n) ∧
      ms.map (Move.sight x) = (List.range n).flatMap fun j =>
        (List.range (body.length + 2)).map (·, some (v - Int64.ofNat j)) := by
  -- with fewer rounds behind it than its number said, the ingredient is not 0 yet
  induction n with
  | zero => exact ⟨f, k, [], .none, .stay, rfl, by simpa using hv, rfl⟩
  | succ n ih =>
    obtain ⟨f₁, k₁, ms₁, hrounds, hpath₁, hrecipe₁, hnumber₁, hsight₁⟩ := ih (by omega)
    have hne : v - Int64.ofNat n ≠ 0 := fun hzero =>
      Nat.ne_of_lt hn ((sub_ofNat_eq_zero_iff (Nat.le_of_lt hn)).1 hzero)
    obtain ⟨fuel, hsucceeds⟩ := hbody n hn f₁ k₁ hrounds
    obtain ⟨f₂, k₂, b, ms₂, hcarry, hb, hbv, hrecipe₂, hpath₂, hsight₂⟩ :=
      path_round (hrecipe₁ ▸ hcode) hcounts hsteady hnumber₁ hne hsucceeds
    refine ⟨_, k₂, ms₁ ++ ms₂, .more hrounds hcarry hb, hpath₁.append hpath₂, ?_, ?_, ?_⟩
    · rw [Frame.recipe_setValue, hrecipe₂, hrecipe₁]
    · rw [Frame.number?_setValue hb, hbv, Int64.sub_sub, Int64.ofNat_add]
      rfl
    · rw [List.map_append, hsight₁, hsight₂, List.range_succ (n := n), List.flatMap_append,
        List.flatMap_singleton]

end

/-- A loop that counts down goes round exactly as often as the number of its
ingredient says, read as an unsigned one, whatever its verb, as long as its body
neither fails nor gives the ingredient another number.  The body meets the numbers
one after the other, going down.  The recipe ends behind the loop, with 0 in the
ingredient, and otherwise with what carrying out the body and counting down that
often leaves. -/
theorem loop_counts_down {ends : LoopEnds} {body : List Instruction} {x : Text}
    (hcounts : ends.Counts x) (hsteady : ∀ i ∈ body, i.Steady x) :
    ∃ code, Loops.resolve (ends.start :: (body ++ [ends.stop])) = .ok code ∧
      ∀ (p : Program) (limit depth : UInt32) (f : Frame) (k : Kitchen) (v : Int64),
        f.recipe.instructions = code → f.number? x = some v →
        let count := (if 0 ≤ v.toInt then v.toInt else UInt64.size + v.toInt).toNat
        (∀ n < count, ∀ f₁ k₁, p.Rounds limit depth body x n f k f₁ k₁ →
          ∃ fuel, (p.carryOut limit fuel depth body f₁ k₁).Succeeds) →
        ∃ f' k' enough, p.Rounds limit depth body x count f k f' k' ∧ f'.number? x = some 0 ∧
          ∀ fuel ≥ enough,
            p.cook limit fuel depth f k =
              { ending := .done, frame := f'.jump (body.length + 2), kitchen := k' } ∧
            (p.moves limit fuel depth (f.jump 0) k).map (Move.sight x) =
              ((List.range count).flatMap fun n =>
                (List.range (body.length + 2)).map (·, some (v - Int64.ofNat n))) ++
                [(0, some 0)] := by
  refine ⟨ends.around body, resolve_around fun i hi => (hsteady i hi).plain, ?_⟩
  intro p limit depth f k v hcode hv count hbody
  have hcount : count = v.toUInt64.toNat := (toNat_toUInt64 v).symm
  obtain ⟨f', k', ms, hrounds, hpath, hrecipe, hnumber, hsight⟩ :=
    path_rounds hcode hcounts hsteady hv (hcount ▸ hbody) (Nat.le_of_eq hcount)
  rw [(sub_ofNat_eq_zero_iff (Nat.le_of_eq hcount)).2 hcount] at hnumber
  obtain ⟨b, hb, hzero⟩ := exists_binding hnumber
  have hstart : f'.recipe.instructions[0]? = some (ends.startTo (body.length + 1)) := by
    rw [hrecipe, hcode]
    rfl
  have hskip : p.turn limit 0 depth (ends.startTo (body.length + 1)) (f'.jump 0) k' =
      .goOn (f'.jump (body.length + 2)) k' :=
    turn_startTo_of_zero (hcounts.start ▸ Frame.ingredient_eq_ok_iff.2 hb) hzero
  have hnone : f'.recipe.instructions[body.length + 2]? = none := by
    rw [hrecipe, hcode]
    simp [LoopEnds.around]
  obtain ⟨enough, hcook⟩ :=
    (hpath.append (.go (f := f'.jump 0) hstart hskip .stay)).cookFrom hnone
  refine ⟨f', k', enough, hrounds, hnumber, fun fuel hfuel => ⟨(hcook fuel hfuel).1, ?_⟩⟩
  have hlast : (f'.jump 0).number? x = some 0 := hnumber
  rw [(hcook fuel hfuel).2, List.map_append, hsight, List.map_singleton, Move.sight, hlast]
  rfl

/-- A negative number goes all the way round: with -2 of flour, four statements
are carried out almost as often as there are 64-bit numbers. -/
theorem loop_counts_down_flour :
    let start : Instruction := { action := .loopStart, name := "Sift", ingredient := "flour" }
    let stop : Instruction := { action := .loopEnd, keyword := "sifted", ingredient := "flour" }
    let body : List Instruction := [{ action := .addDry }, { action := .pour }]
    let r : Recipe :=
      { name := "Pastry", ingredients := [{ name := "flour", value := some (-2) }]
        instructions :=
          { start with keyword := "sifted", target := 3 } :: (body ++ [{ stop with target := 0 }]) }
    ∀ (p : Program) (limit depth : UInt32) (k : Kitchen), ∃ f' k' enough,
      p.Rounds limit depth body "flour" 18446744073709551614 (.ofRecipe r) k f' k' ∧
        f'.number? "flour" = some 0 ∧
        ∀ fuel ≥ enough, p.cook limit fuel depth (.ofRecipe r) k =
          { ending := .done, frame := f'.jump 4, kitchen := k' } := by
  intro start stop body r p limit depth k
  let ends : LoopEnds :=
    { start, stop, start_action := rfl, stop_action := rfl, closing := by decide }
  have hsteady : ∀ i ∈ body, i.Steady "flour" := by
    simp only [body, List.forall_mem_cons]
    refine ⟨?_, ?_, by simp⟩ <;> exact ⟨by simp [Loops.IsTargeted], by decide, by simp⟩
  have hcounts : ends.Counts "flour" := ⟨rfl, rfl, by decide⟩
  obtain ⟨code, hresolve, hloop⟩ := loop_counts_down hcounts hsteady
  have hcode : r.instructions = code := by
    have hsame : Loops.resolve (start :: (body ++ [stop])) = .ok r.instructions := by decide
    exact Except.ok.inj (hsame.symm.trans hresolve)
  have hbody (n : Nat) (f₁ : Frame) (k₁ : Kitchen) :
      ∃ fuel, (p.carryOut limit fuel depth body f₁ k₁).Succeeds := ⟨0, .inl rfl⟩
  obtain ⟨f', k', enough, hrounds, hnumber, hcook⟩ :=
    hloop p limit depth (.ofRecipe r) k (-2) hcode (by decide) fun n _ f₁ k₁ _ => hbody n f₁ k₁
  exact ⟨f', k', enough, hrounds, hnumber, fun fuel hfuel => (hcook fuel hfuel).1⟩

end Cookbook
