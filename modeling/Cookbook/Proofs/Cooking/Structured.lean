import Cookbook.Proofs.Cooking.Blocks
import Cookbook.Proofs.Cooking.Places

/-!
# Cookbook.Proofs.Cooking.Structured

Jumping is looping.  `Block.run` carries out a well-nested method by its tree,
without targets and without counting statements: a loop goes round as long as
its ingredient is not 0, and setting aside leaves the loop around it.  Cooking
the method with its loops paired comes to the same (`cook_flatten`).

One half follows the tree: wherever a run of a block gets to, cooking from its
first statement gets to as well (`run_followed`).  The other half follows the
statements: as long as cooking does not starve, neither does the run
(`run_fed`).
-/

namespace Cookbook

/-! ## Carrying out blocks -/

/-- How a block is carried out. -/
inductive Passage where
  /-- To its end. -/
  | through
  /-- Until something was set aside. -/
  | left
  /-- Until the recipe ended. -/
  | ends (e : Ending)
deriving DecidableEq

/-- A passage with the state it leaves. -/
structure Course where
  passage : Passage
  frame : Frame
  kitchen : Kitchen
deriving DecidableEq

/-- The recipe is given up because a statement asks for what is not there. -/
def Course.lacking (i : Instruction) (what : Shortage) (f : Frame) (k : Kitchen) : Course where
  passage := .ends (.failed { recipe := f.recipe.name, cause := .lacking i.location what })
  frame := f
  kitchen := k

/-- Counts an ingredient down, if the statement names one. -/
def Frame.countDown (f : Frame) (i : Instruction) : Except Shortage Frame :=
  if i.ingredient.isEmpty then .ok f
  else
    match f.ingredient i.ingredient with
    | .error what => .error what
    | .ok b => .ok (f.setValue i.ingredient { b.value with number := b.value.number - 1 })

namespace Block

/-- Carries out a block.  As long as the ingredient of a loop is not 0, its body
is carried out and the ingredient of its end counted down. -/
def run (p : Program) (limit depth : UInt32) : Nat → Block inLoop → Frame → Kitchen → Course
  | 0, _, f, k => { passage := .ends .starved, frame := f, kitchen := k }
  | _ + 1, done, f, k => { passage := .through, frame := f, kitchen := k }
  | fuel + 1, plain i _ rest, f, k =>
    let turn := p.turn limit fuel depth i f k
    match turn.outcome with
    | .goesOn => run p limit depth fuel rest turn.frame turn.kitchen
    | .ends e => { passage := .ends e, frame := turn.frame, kitchen := turn.kitchen }
  | _ + 1, setAside _ _ _, f, k => { passage := .left, frame := f, kitchen := k }
  | fuel + 1, loop ends body rest, f, k =>
    match f.ingredient ends.start.ingredient with
    | .error what => .lacking ends.start what f k
    | .ok x =>
      if x.value.number = 0 then run p limit depth fuel rest f k
      else
        let course := run p limit depth fuel body f k
        match course.passage with
        | .through =>
          match course.frame.countDown ends.stop with
          | .error what => .lacking ends.stop what course.frame course.kitchen
          | .ok f' => run p limit depth fuel (loop ends body rest) f' course.kitchen
        | .left => run p limit depth fuel rest course.frame course.kitchen
        | .ends _ => course

/-- Cooks a recipe whose method is a block.  Outside of loops nothing is set
aside, so it ends if and only if the block is carried out to its end or ends the
recipe. -/
def cook (b : Block false) (p : Program) (limit : UInt32) (fuel : Nat) : Cook := fun depth f k =>
  let course := b.run p limit depth fuel f k
  { ending := match course.passage with
      | .ends e => e
      | _ => .done
    frame := course.frame
    kitchen := course.kitchen }

/-! ## Fuel -/

section

variable {p : Program} {limit depth : UInt32} {fuel fuel' : Nat} {f : Frame} {k : Kitchen}

/-- A block that does not starve is carried out in the same way with more
fuel. -/
theorem run_mono (b : Block inLoop) (hle : fuel ≤ fuel')
    (h : (b.run p limit depth fuel f k).passage ≠ .ends .starved) :
    b.run p limit depth fuel' f k = b.run p limit depth fuel f k := by
  induction fuel generalizing inLoop b fuel' f k with
  | zero => simp [run] at h
  | succ fuel ih =>
    obtain ⟨m, rfl⟩ : ∃ m, fuel' = m + 1 := ⟨fuel' - 1, by omega⟩
    have hle' : fuel ≤ m := Nat.le_of_succ_le_succ hle
    cases b with
    | done => rfl
    | setAside i hi rest => rfl
    | plain i hi rest =>
      simp only [run] at h ⊢
      have hturn : (p.turn limit fuel depth i f k).outcome ≠ .ends .starved := by
        intro hstarved
        simp [hstarved] at h
      rw [turn_mono hle' hturn]
      cases ho : (p.turn limit fuel depth i f k).outcome with
      | ends e => rfl
      | goesOn =>
        simp only [ho] at h
        exact ih rest hle' h
    | loop ends body rest =>
      simp only [run] at h ⊢
      cases hx : f.ingredient ends.start.ingredient with
      | error what => rfl
      | ok x =>
        simp only [hx] at h ⊢
        by_cases hzero : x.value.number = 0
        · simp only [if_pos hzero] at h ⊢
          exact ih rest hle' h
        · simp only [if_neg hzero] at h ⊢
          have hbody : (body.run p limit depth fuel f k).passage ≠ .ends .starved := by
            intro hstarved
            simp [hstarved] at h
          rw [ih body hle' hbody]
          cases hpass : (body.run p limit depth fuel f k).passage with
          | ends e => rfl
          | left =>
            simp only [hpass] at h
            exact ih rest hle' h
          | through =>
            simp only [hpass] at h ⊢
            cases hdown : (body.run p limit depth fuel f k).frame.countDown ends.stop with
            | error what => rfl
            | ok f' =>
              simp only [hdown] at h
              exact ih (loop ends body rest) hle' h

end

end Block

/-! ## Single statements -/

section

variable {p : Program} {limit depth : UInt32} {fuel n : Nat} {i : Instruction} {f f' : Frame}
  {k k' : Kitchen}

theorem cookFrom_of_turn_goOn (hi : f.recipe.instructions[f.ip]? = some i)
    (h : p.turn limit fuel depth i f k = .goOn f' k') :
    cookFrom p limit (fuel + 1) depth f k = cookFrom p limit fuel depth f' k' := by
  have ho : (p.turn limit fuel depth i f k).outcome = .goesOn := by rw [h, Turn.goOn]
  rw [cookFrom_of_goesOn hi ho, h, Turn.goOn]

/-- A statement that is no jump comes to the one behind it. -/
theorem turn_eq_goOn (hi : ¬ Loops.IsTargeted i.action)
    (ho : (p.turn limit fuel depth i f k).outcome = .goesOn) :
    p.turn limit fuel depth i (f.jump n) k =
      .goOn ((p.turn limit fuel depth i f k).frame.jump (n + 1))
        (p.turn limit fuel depth i f k).kitchen := by
  rw [turn_jump hi, Turn.place, if_pos ho, ho, Turn.goOn]

/-- A statement that is no jump ends the recipe alike wherever it stands. -/
theorem cookFrom_of_turn_ends {e : Ending} (hi : ¬ Loops.IsTargeted i.action)
    (hget : f.recipe.instructions[n]? = some i)
    (ho : (p.turn limit fuel depth i f k).outcome = .ends e) :
    cookFrom p limit (fuel + 1) depth (f.jump n) k =
      { ending := e
        frame := (p.turn limit fuel depth i f k).frame.jump n
        kitchen := (p.turn limit fuel depth i f k).kitchen } := by
  have hplace : p.turn limit fuel depth i (f.jump n) k = (p.turn limit fuel depth i f k).place n :=
    turn_jump hi
  have hjump : (p.turn limit fuel depth i f k).place n =
      { p.turn limit fuel depth i f k with
        frame := (p.turn limit fuel depth i f k).frame.jump n } := by
    rw [Turn.place, if_neg (by simp [ho])]
  have hends : (p.turn limit fuel depth i (f.jump n) k).outcome = .ends e := by
    rw [hplace, hjump, ho]
  rw [cookFrom_of_ends hget hends, hplace, hjump]

/-- A statement that is given up ends the recipe. -/
theorem cookFrom_of_turn_fail {cause : RunError.Cause} (hi : f.recipe.instructions[f.ip]? = some i)
    (h : p.turn limit fuel depth i f k = .fail f' k' cause) :
    cookFrom p limit (fuel + 1) depth f k =
      { ending := .failed { recipe := f'.recipe.name, cause }, frame := f', kitchen := k' } := by
  have ho : (p.turn limit fuel depth i f k).outcome =
      .ends (.failed { recipe := f'.recipe.name, cause }) := by rw [h, Turn.fail]
  rw [cookFrom_of_ends hi ho, h, Turn.fail]

section

variable {ends : LoopEnds} {target : Nat} {what : Shortage} {x : Binding}

theorem turn_startTo_of_error (hx : f.ingredient ends.start.ingredient = .error what) :
    p.turn limit fuel depth (ends.startTo target) (f.jump n) k =
      .fail (f.jump n) k (.lacking ends.start.location what) := by
  simp only [Program.turn, step, tryStep, LoopEnds.startTo, ends.start_action, loopStartStep,
    Frame.ingredient_jump, hx, Trial.caught_error]

/-- A loop whose ingredient is 0 is skipped. -/
theorem turn_startTo_of_zero (hx : f.ingredient ends.start.ingredient = .ok x)
    (hzero : x.value.number = 0) :
    p.turn limit fuel depth (ends.startTo target) (f.jump n) k = .goOn (f.jump (target + 1)) k := by
  simp only [Program.turn, step, tryStep, LoopEnds.startTo, ends.start_action, loopStartStep,
    Frame.ingredient_jump, hx, if_pos hzero, Frame.jump_jump, Trial.caught_ok]

/-- A loop whose ingredient is not 0 is entered. -/
theorem turn_startTo_of_ne_zero (hx : f.ingredient ends.start.ingredient = .ok x)
    (hzero : x.value.number ≠ 0) :
    p.turn limit fuel depth (ends.startTo target) (f.jump n) k = .goOn (f.jump (n + 1)) k := by
  simp only [Program.turn, step, tryStep, LoopEnds.startTo, ends.start_action, loopStartStep,
    Frame.ingredient_jump, hx, if_neg hzero, Frame.advance_jump, Trial.caught_ok]

theorem turn_stopTo_of_error (hdown : f.countDown ends.stop = .error what) :
    p.turn limit fuel depth (ends.stopTo target) (f.jump n) k =
      .fail (f.jump n) k (.lacking ends.stop.location what) := by
  unfold Frame.countDown at hdown
  simp only [Program.turn, step, tryStep, LoopEnds.stopTo, ends.stop_action, loopEndStep,
    Frame.ingredient_jump]
  by_cases hempty : ends.stop.ingredient.isEmpty
  · simp [hempty] at hdown
  · simp only [if_neg hempty] at hdown ⊢
    cases hy : f.ingredient ends.stop.ingredient with
    | error what' =>
      simp only [hy, Except.error.injEq] at hdown
      rw [hdown, Trial.caught_error]
    | ok y => simp [hy] at hdown

/-- Behind its end a loop begins again. -/
theorem turn_stopTo_of_ok (hdown : f.countDown ends.stop = .ok f') :
    p.turn limit fuel depth (ends.stopTo target) (f.jump n) k = .goOn (f'.jump target) k := by
  unfold Frame.countDown at hdown
  simp only [Program.turn, step, tryStep, LoopEnds.stopTo, ends.stop_action, loopEndStep,
    Frame.ingredient_jump]
  by_cases hempty : ends.stop.ingredient.isEmpty
  · simp only [if_pos hempty, Except.ok.injEq] at hdown ⊢
    rw [hdown, Frame.jump_jump, Trial.caught_ok]
  · simp only [if_neg hempty] at hdown ⊢
    cases hy : f.ingredient ends.stop.ingredient with
    | error what => simp [hy] at hdown
    | ok y =>
      simp only [hy, Except.ok.injEq] at hdown
      simp only [Frame.setValue_jump, Frame.jump_jump, hdown, Trial.caught_ok]

end

/-- Setting aside goes on behind the end of a loop. -/
theorem turn_setAside {target : Nat} (ha : i.action = .setAside) :
    p.turn limit fuel depth { i with target } (f.jump n) k = .goOn (f.jump (target + 1)) k := by
  simp only [Program.turn, step, tryStep, ha, Frame.jump_jump, Trial.caught_ok]

theorem recipe_countDown (h : f.countDown i = .ok f') : f'.recipe = f.recipe := by
  unfold Frame.countDown at h
  split at h
  · cases h
    rfl
  · split at h
    · cases h
    · cases h
      exact f.recipe_setValue _ _

end

/-! ## Getting from one state to another -/

/-- Whether cooking from one state ends as cooking from another does. -/
def Leads (p : Program) (limit depth : UInt32) (f : Frame) (k : Kitchen) (f' : Frame)
    (k' : Kitchen) : Prop :=
  ∀ fuel', (cookFrom p limit fuel' depth f' k').ending ≠ .starved →
    ∃ fuel, cookFrom p limit fuel depth f k = cookFrom p limit fuel' depth f' k'

section

variable {p : Program} {limit depth : UInt32} {i : Instruction} {f f' f'' : Frame}
  {k k' k'' : Kitchen}

theorem Leads.refl : Leads p limit depth f k f k := fun fuel' _ => ⟨fuel', rfl⟩

theorem Leads.trans (h : Leads p limit depth f k f' k') (h' : Leads p limit depth f' k' f'' k'') :
    Leads p limit depth f k f'' k'' := by
  intro fuel'' hfed
  obtain ⟨fuel', heq'⟩ := h' fuel'' hfed
  obtain ⟨fuel, heq⟩ := h fuel' (by rw [heq']; exact hfed)
  exact ⟨fuel, heq.trans heq'⟩

/-- A statement after which the recipe goes on leads to where it goes on. -/
theorem leads_of_turn (fuel : Nat) (hi : f.recipe.instructions[f.ip]? = some i)
    (h : p.turn limit fuel depth i f k = .goOn f' k') : Leads p limit depth f k f' k' := by
  intro fuel' hfed
  have hmore : p.turn limit (max fuel fuel') depth i f k = .goOn f' k' := by
    rw [turn_mono (Nat.le_max_left _ _) (by simp [h, Turn.goOn]), h]
  refine ⟨max fuel fuel' + 1, ?_⟩
  rw [cookFrom_of_turn_goOn hi hmore, cookFrom_mono (Nat.le_max_right _ _) hfed]

end

/-- Whether cooking gets where a course got: behind the block, behind the loop
around the block, or to the end of the recipe. -/
def Course.Followed (c : Course) (p : Program) (limit depth : UInt32) (stop exit : Nat) (f : Frame)
    (k : Kitchen) : Prop :=
  match c.passage with
  | .through => Leads p limit depth f k (c.frame.jump stop) c.kitchen
  | .left => Leads p limit depth f k (c.frame.jump (exit + 1)) c.kitchen
  | .ends e => ∃ fuel n, cookFrom p limit fuel depth f k =
      { ending := e, frame := c.frame.jump n, kitchen := c.kitchen }

theorem Course.Followed.of_leads {c : Course} {p : Program} {limit depth : UInt32}
    {stop exit : Nat} {f f' : Frame} {k k' : Kitchen}
    (h : c.Followed p limit depth stop exit f' k') (hlead : Leads p limit depth f k f' k')
    (hfed : c.passage ≠ .ends .starved) : c.Followed p limit depth stop exit f k := by
  unfold Followed at h ⊢
  cases hpass : c.passage with
  | through | left =>
    simp only [hpass] at h ⊢
    exact hlead.trans h
  | ends e =>
    simp only [hpass] at h ⊢
    obtain ⟨fuel', n, heq'⟩ := h
    have hne : e ≠ .starved := by
      intro he
      exact hfed (by rw [hpass, he])
    obtain ⟨fuel, heq⟩ := hlead fuel' (by rw [heq']; exact hne)
    exact ⟨fuel, n, heq.trans heq'⟩

theorem Course.followed_lacking {p : Program} {limit depth : UInt32} {stop exit n : Nat}
    {i j : Instruction} {what : Shortage} {f : Frame} {k : Kitchen} (fuel : Nat)
    (hget : f.recipe.instructions[n]? = some j)
    (h : p.turn limit fuel depth j (f.jump n) k =
      .fail (f.jump n) k (.lacking i.location what)) :
    (Course.lacking i what f k).Followed p limit depth stop exit (f.jump n) k :=
  ⟨fuel + 1, n, cookFrom_of_turn_fail hget h⟩

/-! ## The layout in the method -/

section

variable {code xs ys : List Instruction} {a : Instruction} {n : Nat}

theorem getElem?_of_cons_isPrefix (h : a :: xs <+: code.drop n) :
    code[n]? = some a ∧ xs <+: code.drop (n + 1) := by
  obtain ⟨t, ht⟩ := h
  constructor
  · have hget : (code.drop n)[0]? = some a := by rw [← ht]; rfl
    rwa [List.getElem?_drop] at hget
  · rw [← List.tail_drop, ← ht]
    exact List.prefix_append xs t

theorem isPrefix_of_append_isPrefix (h : xs ++ ys <+: code.drop n) :
    xs <+: code.drop n ∧ ys <+: code.drop (n + xs.length) := by
  obtain ⟨t, ht⟩ := h
  rw [List.append_assoc] at ht
  constructor
  · rw [← ht]
    exact List.prefix_append xs _
  · rw [← List.drop_drop, ← ht, List.drop_left]
    exact List.prefix_append ys t

end

/-- Where the statements of a loop stand in a method in which it is laid out. -/
theorem Block.layout_loop_isPrefix {code : List Instruction} {ends : LoopEnds} {body : Block true}
    {rest : Block inLoop} {exit n : Nat}
    (h : (Block.loop ends body rest).layout exit n <+: code.drop n) :
    code[n]? = some (ends.startTo (n + 1 + body.size)) ∧
      body.layout (n + 1 + body.size) (n + 1) <+: code.drop (n + 1) ∧
      code[n + 1 + body.size]? = some (ends.stopTo n) ∧
      rest.layout exit (n + 1 + body.size + 1) <+: code.drop (n + 1 + body.size + 1) := by
  rw [Block.layout] at h
  obtain ⟨hstart, htail⟩ := getElem?_of_cons_isPrefix h
  obtain ⟨hbody, htail⟩ := isPrefix_of_append_isPrefix htail
  rw [Block.length_layout] at htail
  obtain ⟨hstop, hrest⟩ := getElem?_of_cons_isPrefix htail
  exact ⟨hstart, hbody, hstop, hrest⟩

/-! ## Cooking follows the tree -/

namespace Block

section

variable {p : Program} {limit depth : UInt32} {fuel : Nat} {f : Frame} {k : Kitchen}

/-- A run keeps the recipe. -/
theorem recipe_run (b : Block inLoop) :
    (b.run p limit depth fuel f k).frame.recipe = f.recipe := by
  induction fuel generalizing inLoop b f k with
  | zero => rfl
  | succ fuel ih =>
    cases b with
    | done => rfl
    | setAside i hi rest => rfl
    | plain i hi rest =>
      simp only [run]
      split
      · rw [ih, recipe_turn]
      · exact recipe_turn
    | loop ends body rest =>
      simp only [run]
      split
      · rfl
      · split
        · exact ih rest
        · split
          · split
            · exact ih body
            · next hdown => rw [ih, recipe_countDown hdown, ih]
          · rw [ih, ih]
          · exact ih body

/-- Cooking from the first statement of a block that is laid out in the method
gets where the run of the block gets. -/
theorem run_followed (b : Block inLoop) {exit n : Nat}
    (hcode : b.layout exit n <+: f.recipe.instructions.drop n)
    (hfed : (b.run p limit depth fuel f k).passage ≠ .ends .starved) :
    (b.run p limit depth fuel f k).Followed p limit depth (n + b.size) exit (f.jump n) k := by
  induction fuel generalizing inLoop b exit n f k with
  | zero => simp [run] at hfed
  | succ fuel ih =>
    cases b with
    | done => exact Leads.refl
    | setAside i hi rest =>
      obtain ⟨hget, -⟩ := getElem?_of_cons_isPrefix hcode
      exact leads_of_turn 0 hget (turn_setAside hi)
    | plain i hi rest =>
      obtain ⟨hget, hrest⟩ := getElem?_of_cons_isPrefix hcode
      simp only [run] at hfed ⊢
      cases ho : (p.turn limit fuel depth i f k).outcome with
      | ends e => exact ⟨fuel + 1, n, cookFrom_of_turn_ends hi hget ho⟩
      | goesOn =>
        simp only [ho] at hfed ⊢
        have hlead : Leads p limit depth (f.jump n) k
            ((p.turn limit fuel depth i f k).frame.jump (n + 1))
            (p.turn limit fuel depth i f k).kitchen :=
          leads_of_turn fuel hget (turn_eq_goOn hi ho)
        have hfollowed := ih rest (by rw [recipe_turn]; exact hrest) hfed
        rw [size_plain, ← Nat.add_assoc, Nat.add_right_comm]
        exact hfollowed.of_leads hlead hfed
    | loop ends body rest =>
      obtain ⟨hstart, hbody, hstop, hrest⟩ := layout_loop_isPrefix hcode
      have hsize : n + (loop ends body rest).size = n + 1 + body.size + 1 + rest.size := by
        rw [size_loop]
        omega
      simp only [run] at hfed ⊢
      cases hx : f.ingredient ends.start.ingredient with
      | error what =>
        exact Course.followed_lacking 0 hstart (turn_startTo_of_error hx)
      | ok x =>
        simp only [hx] at hfed ⊢
        by_cases hzero : x.value.number = 0
        · simp only [if_pos hzero] at hfed ⊢
          have hskip : Leads p limit depth (f.jump n) k (f.jump (n + 1 + body.size + 1)) k :=
            leads_of_turn 0 hstart (turn_startTo_of_zero hx hzero)
          rw [hsize]
          exact (ih rest hrest hfed).of_leads hskip hfed
        · simp only [if_neg hzero] at hfed ⊢
          have henter : Leads p limit depth (f.jump n) k (f.jump (n + 1)) k :=
            leads_of_turn 0 hstart (turn_startTo_of_ne_zero hx hzero)
          have hrecipe : (body.run p limit depth fuel f k).frame.recipe = f.recipe :=
            recipe_run body
          have hbodyfed : (body.run p limit depth fuel f k).passage ≠ .ends .starved := by
            intro hstarved
            simp [hstarved] at hfed
          have hfollowed := (ih body hbody hbodyfed).of_leads henter hbodyfed
          unfold Course.Followed at hfollowed
          cases hpass : (body.run p limit depth fuel f k).passage with
          | ends e =>
            simp only [hpass] at hfollowed ⊢
            simpa only [Course.Followed, hpass] using hfollowed
          | left =>
            simp only [hpass] at hfed hfollowed ⊢
            rw [hsize]
            exact (ih rest (hrecipe ▸ hrest) hfed).of_leads hfollowed hfed
          | through =>
            simp only [hpass] at hfed hfollowed ⊢
            have hget := hrecipe ▸ hstop
            cases hdown : (body.run p limit depth fuel f k).frame.countDown ends.stop with
            | error what =>
              refine Course.Followed.of_leads ?_ hfollowed (by simp [Course.lacking])
              exact Course.followed_lacking 0 hget (turn_stopTo_of_error hdown)
            | ok f' =>
              simp only [hdown] at hfed ⊢
              have hagain : Leads p limit depth
                  ((body.run p limit depth fuel f k).frame.jump (n + 1 + body.size))
                  (body.run p limit depth fuel f k).kitchen (f'.jump n)
                  (body.run p limit depth fuel f k).kitchen :=
                leads_of_turn 0 hget (turn_stopTo_of_ok hdown)
              have hcode' := (recipe_countDown hdown).trans hrecipe ▸ hcode
              exact (ih _ hcode' hfed).of_leads (hfollowed.trans hagain) hfed

end

end Block

/-! ## The tree follows the cooking -/

/-- Whether cooking goes on, behind the block or behind the loop around the
block, without starving on the given fuel. -/
def Course.Fed (c : Course) (p : Program) (limit depth : UInt32) (stop exit fuel : Nat) : Prop :=
  match c.passage with
  | .through =>
    ∃ m ≤ fuel, (cookFrom p limit m depth (c.frame.jump stop) c.kitchen).ending ≠ .starved
  | .left =>
    ∃ m ≤ fuel, (cookFrom p limit m depth (c.frame.jump (exit + 1)) c.kitchen).ending ≠ .starved
  | .ends e => e ≠ .starved

namespace Course.Fed

variable {c : Course} {p : Program} {limit depth : UInt32} {stop exit fuel fuel' : Nat}

theorem mono (h : c.Fed p limit depth stop exit fuel) (hle : fuel ≤ fuel') :
    c.Fed p limit depth stop exit fuel' := by
  unfold Fed at h ⊢
  cases hpass : c.passage with
  | through | left =>
    simp only [hpass] at h ⊢
    obtain ⟨m, hm, hfed⟩ := h
    exact ⟨m, Nat.le_trans hm hle, hfed⟩
  | ends e =>
    simp only [hpass] at h ⊢
    exact h

theorem passage_ne (h : c.Fed p limit depth stop exit fuel) : c.passage ≠ .ends .starved := by
  unfold Fed at h
  intro hstarved
  simp only [hstarved] at h
  exact h rfl

end Course.Fed

namespace Block

section

variable {p : Program} {limit depth : UInt32} {fuel : Nat} {f : Frame} {k : Kitchen}

/-- As long as cooking does not starve, the run of a block does not either. -/
theorem run_fed (b : Block inLoop) {exit n : Nat}
    (hcode : b.layout exit n <+: f.recipe.instructions.drop n)
    (h : (cookFrom p limit fuel depth (f.jump n) k).ending ≠ .starved) :
    (b.run p limit depth fuel f k).Fed p limit depth (n + b.size) exit fuel := by
  -- every round of a loop costs the cooking a statement, so the rounds left have less fuel
  induction fuel using Nat.strongRecOn generalizing inLoop b exit n f k with
  | ind fuel ih =>
  cases fuel with
  | zero => simp [cookFrom] at h
  | succ fuel =>
    have hlt : fuel < fuel + 1 := Nat.lt_succ_self fuel
    cases b with
    | done => exact ⟨fuel + 1, Nat.le_refl _, h⟩
    | setAside i hi rest =>
      obtain ⟨hget, -⟩ := getElem?_of_cons_isPrefix hcode
      rw [cookFrom_of_turn_goOn hget (turn_setAside hi)] at h
      exact ⟨fuel, Nat.le_succ _, h⟩
    | plain i hi rest =>
      obtain ⟨hget, hrest⟩ := getElem?_of_cons_isPrefix hcode
      simp only [run]
      cases ho : (p.turn limit fuel depth i f k).outcome with
      | ends e =>
        rw [cookFrom_of_turn_ends hi hget ho] at h
        exact h
      | goesOn =>
        rw [cookFrom_of_turn_goOn hget (turn_eq_goOn hi ho)] at h
        rw [size_plain, ← Nat.add_assoc, Nat.add_right_comm]
        exact (ih fuel hlt rest (by rw [recipe_turn]; exact hrest) h).mono (Nat.le_succ _)
    | loop ends body rest =>
      obtain ⟨hstart, hbody, hstop, hrest⟩ := layout_loop_isPrefix hcode
      have hsize : n + (loop ends body rest).size = n + 1 + body.size + 1 + rest.size := by
        rw [size_loop]
        omega
      simp only [run]
      cases hx : f.ingredient ends.start.ingredient with
      | error what => simp [Course.Fed, Course.lacking]
      | ok x =>
        simp only
        by_cases hzero : x.value.number = 0
        · rw [if_pos hzero, hsize]
          rw [cookFrom_of_turn_goOn hstart (turn_startTo_of_zero hx hzero)] at h
          exact (ih fuel hlt rest hrest h).mono (Nat.le_succ _)
        · rw [if_neg hzero]
          rw [cookFrom_of_turn_goOn hstart (turn_startTo_of_ne_zero hx hzero)] at h
          have hrecipe : (body.run p limit depth fuel f k).frame.recipe = f.recipe :=
            recipe_run body
          have hfed := ih fuel hlt body hbody h
          unfold Course.Fed at hfed
          cases hpass : (body.run p limit depth fuel f k).passage with
          | ends e =>
            simp only [hpass] at hfed ⊢
            simpa only [Course.Fed, hpass] using hfed
          | left =>
            simp only [hpass] at hfed ⊢
            obtain ⟨m, hm, hfed⟩ := hfed
            rw [← cookFrom_mono hm hfed] at hfed
            rw [hsize]
            exact (ih fuel hlt rest (hrecipe ▸ hrest) hfed).mono (Nat.le_succ _)
          | through =>
            simp only [hpass] at hfed ⊢
            obtain ⟨m, hm, hfed⟩ := hfed
            cases hdown : (body.run p limit depth fuel f k).frame.countDown ends.stop with
            | error what => simp [Course.Fed, Course.lacking]
            | ok f' =>
              cases m with
              | zero => simp [cookFrom] at hfed
              | succ m =>
                have hget := hrecipe ▸ hstop
                have hcode' := (recipe_countDown hdown).trans hrecipe ▸ hcode
                rw [cookFrom_of_turn_goOn hget (turn_stopTo_of_ok hdown)] at hfed
                have hagain := ih m (by omega) (loop ends body rest) hcode' hfed
                simp only
                rw [run_mono _ (by omega) hagain.passage_ne]
                exact hagain.mono (by omega)

end

/-! ## Whole methods -/

section

variable {p : Program} {limit depth : UInt32} {fuel : Nat} {f : Frame} {k : Kitchen}

/-- A block that stands in no loop is not left by setting aside. -/
theorem run_passage_ne_left (b : Block false) :
    (b.run p limit depth fuel f k).passage ≠ .left := by
  induction fuel generalizing f k b with
  | zero => simp [run]
  | succ fuel ih =>
    cases b with
    | done => simp [run]
    | plain i hi rest =>
      simp only [run]
      split
      · exact ih rest
      · simp
    | loop ends body rest =>
      simp only [run]
      split
      · simp [Course.lacking]
      · split
        · exact ih rest
        · split
          · split
            · simp [Course.lacking]
            · exact ih _
          · exact ih rest
          · next hends => simp [hends]

/-- A method that is laid out begins with its layout. -/
theorem layout_isPrefix {b : Block false} (hcode : f.recipe.instructions = b.layout 0 0) :
    b.layout 0 0 <+: f.recipe.instructions.drop 0 := by
  rw [hcode]
  exact List.prefix_rfl

theorem cook_ending_ne_starved_iff {b : Block false} :
    (b.cook p limit fuel depth f k).ending ≠ .starved ↔
      (b.run p limit depth fuel f k).passage ≠ .ends .starved := by
  unfold cook
  cases hpass : (b.run p limit depth fuel f k).passage <;> simp [hpass]

/-- Cooking a method ends as its tree does, but for where it comes to. -/
theorem exists_cook_eq (b : Block false) (hcode : f.recipe.instructions = b.layout 0 0)
    (hfed : (b.cook p limit fuel depth f k).ending ≠ .starved) :
    ∃ fuel' n, p.cook limit fuel' depth f k =
      { b.cook p limit fuel depth f k with
        frame := (b.cook p limit fuel depth f k).frame.jump n } := by
  have hfollowed := b.run_followed (layout_isPrefix hcode) (cook_ending_ne_starved_iff.1 hfed)
  unfold Course.Followed at hfollowed
  unfold cook Program.cook
  cases hpass : (b.run p limit depth fuel f k).passage with
  | left => exact absurd hpass b.run_passage_ne_left
  | ends e =>
    simp only [hpass] at hfollowed ⊢
    exact hfollowed
  | through =>
    simp only [hpass] at hfollowed ⊢
    -- behind the last statement the recipe is done
    have hnone : (b.run p limit depth fuel f k).frame.recipe.instructions[0 + b.size]? = none := by
      rw [recipe_run, hcode, Nat.zero_add, ← b.length_layout 0 0]
      exact List.getElem?_eq_none (Nat.le_refl _)
    have hend : cookFrom p limit 1 depth ((b.run p limit depth fuel f k).frame.jump (0 + b.size))
        (b.run p limit depth fuel f k).kitchen =
          { ending := .done
            frame := (b.run p limit depth fuel f k).frame.jump (0 + b.size)
            kitchen := (b.run p limit depth fuel f k).kitchen } := cookFrom_of_none hnone
    obtain ⟨fuel', heq⟩ := hfollowed 1 (by rw [hend]; simp)
    exact ⟨fuel', 0 + b.size, heq.trans hend⟩

end

/-- Jumps are structured loops: the loops of a well-nested method can be paired,
and cooking the paired method ends if and only if carrying out the tree does,
with the same ending, bowls, dishes and ingredients, and with the same
refrigerator, shuffler and dishes served. -/
theorem cook_flatten (b : Block false) :
    ∃ code, Loops.resolve b.flatten = .ok code ∧
      ∀ (p : Program) (limit depth : UInt32) (f : Frame) (k : Kitchen),
        f.recipe.instructions = code →
        ((∃ fuel, (p.cook limit fuel depth f k).ending ≠ .starved) ↔
          ∃ fuel, (b.cook p limit fuel depth f k).ending ≠ .starved) ∧
        ∀ fuel fuel', (p.cook limit fuel depth f k).ending ≠ .starved →
          (b.cook p limit fuel' depth f k).ending ≠ .starved →
          let flat := p.cook limit fuel depth f k
          let tree := b.cook p limit fuel' depth f k
          flat.ending = tree.ending ∧ flat.frame.bowls = tree.frame.bowls ∧
            flat.frame.dishes = tree.frame.dishes ∧
            flat.frame.ingredients = tree.frame.ingredients ∧ flat.kitchen = tree.kitchen := by
  refine ⟨b.layout 0 0, b.resolve_flatten, ?_⟩
  intro p limit depth f k hcode
  refine ⟨⟨?_, ?_⟩, ?_⟩
  · rintro ⟨fuel, hfed⟩
    have hrun := (b.run_fed (layout_isPrefix hcode) hfed).passage_ne
    exact ⟨fuel, cook_ending_ne_starved_iff.2 hrun⟩
  · rintro ⟨fuel, hfed⟩
    obtain ⟨fuel', n, heq⟩ := b.exists_cook_eq hcode hfed
    exact ⟨fuel', by rw [heq]; exact hfed⟩
  · intro fuel fuel' hflat htree
    obtain ⟨m, n, heq⟩ := b.exists_cook_eq hcode htree
    have hm : (p.cook limit m depth f k).ending ≠ .starved := by
      rw [heq]
      exact htree
    have hsame : p.cook limit fuel depth f k = p.cook limit m depth f k := cookFrom_unique hflat hm
    rw [hsame, heq]
    exact ⟨rfl, rfl, rfl, rfl, rfl⟩

/-- Dough that is kneaded twice.  Each time flour is sifted into the bowl once, and
folding it out again is set aside. -/
theorem cook_flatten_dough :
    let puts : Instruction := { action := .put, ingredient := "flour" }
    let folds : Instruction := { action := .fold, ingredient := "flour" }
    let kneading : LoopEnds :=
      { start := { action := .loopStart, name := "Knead", ingredient := "dough" }
        stop := { action := .loopEnd, ingredient := "dough", keyword := "kneaded" }
        start_action := rfl
        stop_action := rfl
        closing := by decide }
    let sifting : LoopEnds :=
      { start := { action := .loopStart, name := "Sift", ingredient := "flour" }
        stop := { action := .loopEnd, keyword := "sifted" }
        start_action := rfl
        stop_action := rfl
        closing := by decide }
    let sifted : Block true :=
      .plain puts (by simp [puts, Loops.IsTargeted])
        (.setAside { action := .setAside } rfl
          (.plain folds (by simp [folds, Loops.IsTargeted]) .done))
    let b : Block false :=
      .loop kneading (.loop sifting sifted .done)
        (.plain puts (by simp [puts, Loops.IsTargeted]) .done)
    let dough : Recipe :=
      { name := "Dough"
        ingredients := [{ name := "dough", value := some 2 }, { name := "flour", value := some 5 }]
        instructions := b.layout 0 0 }
    let p : Program := {}
    let f := Frame.ofRecipe dough
    let k := Kitchen.prepare .empty 0
    Loops.resolve b.flatten = .ok dough.instructions ∧
      (p.cook 0 20 0 f k).ending = .done ∧
      (p.cook 0 20 0 f k).frame.bowls.entries =
        [(1, { items := [{ number := 5 }, { number := 5 }, { number := 5 }] })] ∧
      (p.cook 0 20 0 f k).frame.ingredients.entries.map (·.2.value.number) = [0, 5] := by
  intro puts folds kneading sifting sifted b dough p f k
  have hresolve : Loops.resolve b.flatten = .ok dough.instructions := by decide +kernel
  have hflat : (p.cook 0 20 0 f k).ending ≠ .starved := by decide +kernel
  have htree : (b.cook p 0 20 0 f k).ending = .done := by decide +kernel
  have hbowls : (b.cook p 0 20 0 f k).frame.bowls.entries =
      [(1, { items := [{ number := 5 }, { number := 5 }, { number := 5 }] })] := by decide +kernel
  have hvalues : (b.cook p 0 20 0 f k).frame.ingredients.entries.map (·.2.value.number) =
      [0, 5] := by decide +kernel
  obtain ⟨code, hcode, hcooks⟩ := cook_flatten b
  have hpaired : dough.instructions = code := Except.ok.inj (hresolve.symm.trans hcode)
  obtain ⟨hending, hsame, -, hbound, -⟩ :=
    (hcooks p 0 0 f k hpaired).2 20 20 hflat (by rw [htree]; simp)
  exact ⟨hresolve, hending.trans htree, (congrArg Shelf.entries hsame).trans hbowls,
    (congrArg (·.entries.map (·.2.value.number)) hbound).trans hvalues⟩

end Block

end Cookbook
