import Cookbook.BuildError

/-!
# Cookbook.Loops

Pairing the loop statements of a method.  A loop is ended by the statement with
its closing word; of several open loops with that word it ends the one opened
last.  Loops of other verbs stay open, so loops of different verbs may cross.
Setting aside leaves the loop that was opened last of those still open.
-/

namespace Cookbook

/-- The word that ends the loop of a verb: `sifted` for `Sift`, `baked` for
`Bake`. -/
def closingWord (verb : Text) : Text :=
  let word := verb.lower
  word ++ if word.getLast? = some 101 then Text.ofString "d" else Text.ofString "ed"

namespace Loops

/-- A loop that is still open. -/
structure Opening where
  index : Nat
  start : Instruction
deriving DecidableEq

end Loops

/-- What is known of the loops of a method after some of its statements. -/
structure Loops where
  /-- The loops still open, the one opened last in front. -/
  pending : List Loops.Opening := []
  /-- Where a loop starts and ends. -/
  pairs : List (Nat × Nat) := []
  /-- Where something is set aside, and where the loop it leaves starts. -/
  exits : List (Nat × Nat) := []
deriving DecidableEq

namespace Loops

/-- Takes note of the statement with the given index. -/
def note (l : Loops) (index : Nat) (i : Instruction) : Except BuildError.Cause Loops :=
  match i.action with
  | .loopStart =>
    let start := { i with keyword := closingWord i.name }
    .ok { l with pending := { index, start } :: l.pending }
  | .loopEnd =>
    match l.pending.find? fun o => o.start.keyword = i.keyword with
    | none => .error (.closesNothing i)
    | some o =>
      .ok { l with
        pending := l.pending.eraseP fun o => o.start.keyword = i.keyword
        pairs := (o.index, index) :: l.pairs }
  | .setAside =>
    match l.pending with
    | [] => .error (.outsideLoop i)
    | o :: _ => .ok { l with exits := (index, o.index) :: l.exits }
  | _ => .ok l

/-- Takes note of statements from the given index on. -/
def noteAll (l : Loops) (index : Nat) : List Instruction → Except BuildError.Cause Loops
  | [] => .ok l
  | i :: rest =>
    match l.note index i with
    | .error cause => .error cause
    | .ok l' => l'.noteAll (index + 1) rest

/-- The loops of a method, each of which has to be ended. -/
def ofMethod (method : List Instruction) : Except BuildError.Cause Loops :=
  match ({} : Loops).noteAll 0 method with
  | .error cause => .error cause
  | .ok l =>
    match l.pending with
    | o :: _ => .error (.neverClosed o.start)
    | [] => .ok l

/-- Where the loop that starts at an index ends. -/
def endOf (l : Loops) (start : Nat) : Nat := (l.pairs.lookup start).getD 0

/-- Where the loop that ends at an index starts. -/
def startOf (l : Loops) (stop : Nat) : Nat :=
  ((l.pairs.find? fun p => p.2 = stop).map (·.1)).getD 0

/-- Where the loop that is left at an index starts. -/
def leftAt (l : Loops) (index : Nat) : Nat := (l.exits.lookup index).getD 0

/-- The statement with the given index, with its closing word and its target
filled in. -/
def connect (l : Loops) (index : Nat) (i : Instruction) : Instruction :=
  match i.action with
  | .loopStart => { i with keyword := closingWord i.name, target := l.endOf index }
  | .loopEnd => { i with target := l.startOf index }
  | .setAside => { i with target := l.endOf (l.leftAt index) }
  | _ => i

/-- A method with its loops paired. -/
def resolve (method : List Instruction) : Except BuildError.Cause (List Instruction) :=
  match ofMethod method with
  | .error cause => .error cause
  | .ok l => .ok (method.mapIdx l.connect)

end Loops

end Cookbook
