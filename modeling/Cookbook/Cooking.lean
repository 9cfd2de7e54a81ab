import Cookbook.Kitchen.Bench
import Cookbook.Kitchen.Refrigerator
import Cookbook.Kitchen.Serving

/-!
# Cookbook.Cooking

Cooking a program.  Each recipe that is being cooked has a frame of its own;
the refrigerator, the shuffler and what has been served are shared by all.

* `tryStep` carries out one statement.  How a recipe that is served with is cooked
  is a parameter, so `tryStep` itself is not recursive.  A statement that asks for
  what the kitchen does not have is broken off there, with no more said than what
  is lacking.
* `step` is a statement with the cook behind it, who then gives the recipe up and
  tells where the statement stands.
* `cookFrom` carries out statements until the recipe ends.  Fuel bounds the
  statements in a row and the recipes within each other, and running out of it
  is an ending of its own.
* `Program.run` cooks the main recipe.

Only the recipe at depth 0 serves dishes.
-/

namespace Cookbook

/-- What all recipes of a run share. -/
structure Kitchen where
  refrigerator : Refrigerator
  shuffler : Twister
  served : Array UInt8 := #[]
deriving DecidableEq

/-- A kitchen with the given refrigerator, in which nothing has been served. -/
def Kitchen.prepare (refrigerator : Refrigerator) (seed : UInt32) : Kitchen where
  refrigerator := refrigerator
  shuffler := Twister.ofSeed seed

/-- How cooking a recipe ends. -/
inductive Ending where
  | done
  | failed (e : RunError)
  /-- The fuel ran out. -/
  | starved
deriving DecidableEq

/-- An ending with the state it leaves. -/
structure Cooked where
  ending : Ending
  frame : Frame
  kitchen : Kitchen
deriving DecidableEq

/-- What a statement leads to. -/
inductive Outcome where
  | goesOn
  | ends (e : Ending)
deriving DecidableEq

/-- What a statement leads to, with the state it leaves. -/
structure Turn where
  outcome : Outcome
  frame : Frame
  kitchen : Kitchen
deriving DecidableEq

namespace Turn

/-- The recipe goes on. -/
def goOn (f : Frame) (k : Kitchen) : Turn := { outcome := .goesOn, frame := f, kitchen := k }

/-- The recipe is given up. -/
def fail (f : Frame) (k : Kitchen) (cause : RunError.Cause) : Turn :=
  { outcome := .ends (.failed { recipe := f.recipe.name, cause }), frame := f, kitchen := k }

end Turn

/-- A statement that was broken off, with the state it leaves. -/
structure Lack where
  what : Shortage
  frame : Frame
  kitchen : Kitchen
deriving DecidableEq

/-- What a statement leads to, unless it asks for what is not there. -/
abbrev Trial := Except Lack Turn

namespace Trial

/-- The recipe goes on unless the attempt failed. -/
def ofAttempt (a : Attempt) (k : Kitchen) : Trial :=
  match a.fault with
  | none => .ok (.goOn a.frame.advance k)
  | some (.lacks what) => .error { what, frame := a.frame, kitchen := k }
  | some (.tells cause) => .ok (.fail a.frame k cause)

/-- The recipe is given up where a statement was broken off, which stands at a
place. -/
def caught (place : Location) : Trial → Turn
  | .ok turn => turn
  | .error lack => .fail lack.frame lack.kitchen (.lacking place lack.what)

/-- What a statement was broken off for, if it was. -/
def shortage? : Trial → Option Shortage
  | .ok _ => none
  | .error lack => some lack.what

@[simp] theorem caught_ok (place : Location) (turn : Turn) : caught place (.ok turn) = turn := rfl

@[simp] theorem caught_error (place : Location) (lack : Lack) :
    caught place (.error lack) = .fail lack.frame lack.kitchen (.lacking place lack.what) := rfl

theorem caught_ofAttempt (a : Attempt) (k : Kitchen) (place : Location) :
    (ofAttempt a k).caught place =
      match a.fault with
      | none => .goOn a.frame.advance k
      | some fault => .fail a.frame k (fault.cause place) := by
  unfold ofAttempt
  split <;> rename_i hfault <;> rw [hfault] <;> rfl

end Trial

/-! ## Statements that need more than the bench -/

/-- Takes a number from the refrigerator into an ingredient. -/
def takeStep (i : Instruction) (f : Frame) (k : Kitchen) : Trial :=
  match f.ingredient i.ingredient with
  | .error what => .error { what, frame := f, kitchen := k }
  | .ok b =>
    let (number, refrigerator) := k.refrigerator.take
    let k' := { k with refrigerator }
    match number with
    | some n =>
      .ok (.goOn (f.setValue i.ingredient { number := n, liquid := b.kind = .liquid }).advance k')
    | none => .ok (.fail f k' (if refrigerator = .empty then .nothingLeft else .notANumber))

/-- Shuffles a bowl. -/
def mixStep (fuel : Nat) (i : Instruction) (f : Frame) (k : Kitchen) : Turn :=
  match (f.bowl i.bowl).shuffle fuel k.shuffler with
  | none => { outcome := .ends .starved, frame := f, kitchen := k }
  | some (s, shuffler) => .goOn (f.setBowl i.bowl s).advance { k with shuffler }

/-- Begins a loop, or skips it if its ingredient is 0. -/
def loopStartStep (i : Instruction) (f : Frame) (k : Kitchen) : Trial :=
  match f.ingredient i.ingredient with
  | .error what => .error { what, frame := f, kitchen := k }
  | .ok b => .ok (.goOn (if b.value.number = 0 then f.jump (i.target + 1) else f.advance) k)

/-- Counts an ingredient down, if one is named, and goes back to the start of
the loop. -/
def loopEndStep (i : Instruction) (f : Frame) (k : Kitchen) : Trial :=
  if i.ingredient.isEmpty then .ok (.goOn (f.jump i.target) k)
  else
    match f.ingredient i.ingredient with
    | .error what => .error { what, frame := f, kitchen := k }
    | .ok b =>
      let v := { b.value with number := b.value.number - 1 }
      .ok (.goOn ((f.setValue i.ingredient v).jump i.target) k)

/-- Serves dishes, then does what follows. -/
def serveStep (count : Int64) (f : Frame) (k : Kitchen) (next : Frame → Kitchen → Turn) : Turn :=
  let served := Served.firstDishes f.dishes k.served count
  let f' := { f with dishes := served.dishes }
  let k' := { k with served := served.written }
  match served.refused with
  | some n => .fail f' k' (.noCharacter n)
  | none => next f' k'

/-- Stops; the main recipe first serves as many dishes as the statement says. -/
def refrigerateStep (depth : UInt32) (i : Instruction) (f : Frame) (k : Kitchen) : Turn :=
  let stop (f : Frame) (k : Kitchen) : Turn := { outcome := .ends .done, frame := f, kitchen := k }
  match i.count with
  | some n => if depth = 0 then serveStep n f k stop else stop f k
  | none => stop f k

/-- A way to cook a recipe at a depth. -/
abbrev Cook := UInt32 → Frame → Kitchen → Cooked

/-- Cooks another recipe with copies of the bowls, which then replace the
recipe's own.  A limit of 0 is none; the depth is a 32-bit number. -/
def serveWithStep (p : Program) (limit : UInt32) (cook : Cook) (depth : UInt32) (i : Instruction)
    (f : Frame) (k : Kitchen) : Turn :=
  match p.find? i.name with
  | none => .fail f k (.noSuchRecipe i.name)
  | some recipe =>
    if limit ≠ 0 ∧ depth + 1 > limit then .fail f k .tooDeep
    else
      let cooked := cook (depth + 1) { Frame.ofRecipe recipe with bowls := f.bowls } k
      match cooked.ending with
      | .done =>
        .goOn { f with bowls := f.bowls.overlay cooked.frame.bowls }.advance cooked.kitchen
      | ending => { outcome := .ends ending, frame := f, kitchen := cooked.kitchen }

/-! ## Steps -/

/-- Carries out one statement, as far as it can be. -/
def tryStep (p : Program) (limit : UInt32) (fuel : Nat) (cook : Cook) (depth : UInt32)
    (i : Instruction) (f : Frame) (k : Kitchen) : Trial :=
  match i.action with
  | .take => takeStep i f k
  | .put => .ofAttempt (f.put i) k
  | .fold => .ofAttempt (f.fold i) k
  | .add => .ofAttempt (f.reckon i fun a b => .ok (a + b)) k
  | .remove => .ofAttempt (f.reckon i fun a b => .ok (a - b)) k
  | .combine => .ofAttempt (f.reckon i fun a b => .ok (a * b)) k
  | .divide => .ofAttempt (f.reckon i (Frame.quotient i)) k
  | .addDry => .ofAttempt (f.addDry i) k
  | .liquefy => .ofAttempt (f.liquefy i) k
  | .liquefyContents => .ofAttempt (f.liquefyContents i) k
  | .stir => .ofAttempt (f.stir i) k
  | .stirIngredient => .ofAttempt (f.stirIngredient i) k
  | .mix => .ok (mixStep fuel i f k)
  | .clean => .ofAttempt (f.clean i) k
  | .pour => .ok (.goOn (f.pour i.bowl i.dish).advance k)
  | .loopStart => loopStartStep i f k
  | .loopEnd => loopEndStep i f k
  | .setAside => .ok (.goOn (f.jump (i.target + 1)) k)
  | .serveWith => .ok (serveWithStep p limit cook depth i f k)
  | .refrigerate => .ok (refrigerateStep depth i f k)
  | .serve =>
    .ok <| if depth = 0 then serveStep (i.count.getD 0) f k fun f k => .goOn f.advance k
      else .goOn f.advance k

/-- Carries out one statement; the recipe is given up if it is broken off. -/
def step (p : Program) (limit : UInt32) (fuel : Nat) (cook : Cook) (depth : UInt32)
    (i : Instruction) (f : Frame) (k : Kitchen) : Turn :=
  (tryStep p limit fuel cook depth i f k).caught i.location

/-- Carries out statements from the one that the frame has come to, until the
recipe ends. -/
def cookFrom (p : Program) (limit : UInt32) : Nat → Cook
  | 0, _, f, k => { ending := .starved, frame := f, kitchen := k }
  | fuel + 1, depth, f, k =>
    match f.recipe.instructions[f.ip]? with
    | none => { ending := .done, frame := f, kitchen := k }
    | some i =>
      let turn := step p limit fuel (cookFrom p limit fuel) depth i f k
      match turn.outcome with
      | .goesOn => cookFrom p limit fuel depth turn.frame turn.kitchen
      | .ends ending => { ending, frame := turn.frame, kitchen := turn.kitchen }

namespace Program

/-- Cooks a recipe from its first statement on. -/
def cook (p : Program) (limit : UInt32) (fuel : Nat) : Cook := fun depth f k =>
  cookFrom p limit fuel depth (f.jump 0) k

/-- Cooks the main recipe. -/
def run (p : Program) (limit : UInt32) (fuel : Nat) (k : Kitchen) : Ending × Kitchen :=
  match p.mainRecipe? with
  | none => (.failed { recipe := p.main, cause := .noMainRecipe }, k)
  | some recipe =>
    let cooked := p.cook limit fuel 0 (Frame.ofRecipe recipe) k
    (cooked.ending, cooked.kitchen)

end Program

end Cookbook
