import Cookbook.Proofs.Cooking.Moves
import Cookbook.Proofs.Cooking.ServingWith
import Cookbook.Proofs.Text.Signed
import Cookbook.Proofs.Token.Words

/-!
# Cookbook.Proofs.Cooking.Takings

The refrigerator hands out its numbers in order.  All recipes of a run share it, and
so do the recipes that are cooked after one another in the same kitchen
(`Program.Session`).  No statement touches it but one that takes a number into an
ingredient that there is (`refrigerator_step`), so each of these meets what the ones
before it have left (`HandsOut`, `handsOut_everyMove`, `handsOut_of_session`), in
whichever recipe and at whatever depth it stands.

What the refrigerator holds is read off its text (`Refrigerator.Holds`): it hands
out the numbers that are written there and is then empty
(`Refrigerator.take_askedFor`), and once it has failed it fails forever in the same
way (`Refrigerator.take_askedFor_of_failed`).
-/

namespace Cookbook

/-! ## Numbers in the refrigerator -/

namespace Refrigerator

/-- Whether a text is made of 64-bit numbers with white space between them, and maybe
in front of the first and behind the last. -/
inductive Holds : Text → List Int64 → Prop where
  | nothing {blank : Text} (hblank : ∀ b ∈ blank, Decimal.isSpace b) : Holds blank []
  | number {blank numeral rest : Text} {v : Int64} {vs : List Int64}
    (hblank : ∀ b ∈ blank, Decimal.isSpace b) (hnumeral : Decimal.Signed numeral v.toInt)
    (hapart : ∀ b, rest.head? = some b → Decimal.isSpace b) (hrest : Holds rest vs) :
    Holds (blank ++ (numeral ++ rest)) (v :: vs)

/-- The refrigerator after it was asked for a number so many times. -/
def askedFor (r : Refrigerator) (n : Nat) : Refrigerator := (fun r => r.take.2)^[n] r

end Refrigerator

/-! ### Numerals -/

namespace Decimal

theorem takeWhile_isDigit {digits rest : Text} (hdigits : ∀ b ∈ digits, Text.isDigit b)
    (hapart : ∀ b, rest.head? = some b → isSpace b) :
    (digits ++ rest).takeWhile Text.isDigit = digits ∧
      (digits ++ rest).dropWhile Text.isDigit = rest := by
  have hrest : rest.takeWhile Text.isDigit = [] ∧ rest.dropWhile Text.isDigit = rest := by
    cases rest with
    | nil => exact ⟨rfl, rfl⟩
    | cons b rest =>
      have hb : Text.isDigit b = false := by
        rw [← Bool.not_eq_true]
        exact fun hdigit => not_isSpace_of_isDigit hdigit (hapart b rfl)
      exact ⟨List.takeWhile_cons_of_neg (by simp [hb]), List.dropWhile_cons_of_neg (by simp [hb])⟩
  constructor
  · rw [List.takeWhile_append_of_pos hdigits, hrest.1, List.append_nil]
  · rw [List.dropWhile_append_of_pos hdigits, hrest.2]

end Decimal

/-! ### Asking for numbers -/

namespace Refrigerator

/-- Whether a refrigerator has just these numbers to hand out. -/
def Stocks : Refrigerator → List Int64 → Prop
  | stocked text, vs => Holds text vs
  | empty, vs => vs = []
  | spoiled, _ => False

variable {r r' : Refrigerator} {vs : List Int64}

theorem stocks_after {rest : Text} (h : Holds rest vs) : (after rest).Stocks vs := by
  unfold after
  split
  · next hempty =>
    rw [List.isEmpty_iff] at hempty
    subst hempty
    generalize hnil : ([] : Text) = text at h
    cases h with
    | nothing _ => rfl
    | @number blank numeral rest v vs hblank hnumeral hapart hrest =>
      obtain ⟨⟨b, hb, -⟩, -⟩ := hnumeral.exists_split
      simp only [List.nil_eq_append_iff, List.append_eq_nil_iff] at hnil
      rw [hnil.2.1] at hb
      cases hb
  · exact h

/-- The first number is handed out, and the others are left. -/
theorem take_of_stocks_cons {v : Int64} (h : r.Stocks (v :: vs)) :
    r.take.1 = some v ∧ r.take.2.Stocks vs := by
  cases r with
  | empty => cases h
  | spoiled => exact h.elim
  | stocked text =>
    cases h with
    | @number blank numeral rest v vs hblank hnumeral hapart hrest =>
      obtain ⟨⟨b, hb, hspace⟩, negative, digits, hne, hdigits, hvalue, hsplit⟩ :=
        hnumeral.exists_split
      obtain ⟨numeral', rfl⟩ := List.head?_eq_some_iff.1 hb
      have hdrop : (blank ++ (b :: numeral' ++ rest)).dropWhile Decimal.isSpace =
          b :: numeral' ++ rest := by
        rw [List.dropWhile_append_of_pos hblank, List.cons_append,
          List.dropWhile_cons_of_neg hspace]
      obtain ⟨htake, hrestd⟩ := Decimal.takeWhile_isDigit hdigits hapart
      have hfull : digits.isEmpty = false := by simpa using hne
      have hvalue' : Decimal.int64?
          (if negative = true then -(Decimal.value digits : Int) else Decimal.value digits) =
            some v := Decimal.int64?_eq_some_iff.2 hvalue.symm
      have hall : take (stocked (blank ++ (b :: numeral' ++ rest))) = (some v, after rest) := by
        simp only [take, hdrop, hsplit, htake, hrestd, hfull, Bool.false_eq_true, if_false,
          hvalue']
      rw [hall]
      exact ⟨rfl, stocks_after hrest⟩

/-- Behind the last number there is nothing. -/
theorem take_of_stocks_nil (h : r.Stocks []) : r.take = (none, empty) := by
  cases r with
  | empty => rfl
  | spoiled => exact h.elim
  | stocked text =>
    cases h with
    | nothing hblank =>
      have hdrop : text.dropWhile Decimal.isSpace = [] := List.dropWhile_eq_nil_iff.2 hblank
      simp only [take, hdrop]
      rfl

/-- A refrigerator that failed fails in the same way again. -/
theorem take_of_failed (h : r.take.1 = none) : r.take.2.take = (none, r.take.2) := by
  have hfailing (rest : Text) : (failing rest).take = (none, failing rest) := by
    unfold failing
    split <;> rfl
  cases r with
  | empty => rfl
  | spoiled => rfl
  | stocked text =>
    have hcases : (∃ rest, (stocked text).take = (none, failing rest)) ∨
        ∃ v rest, (stocked text).take = (some v, after rest) := by
      simp only [take]
      split
      · exact .inl ⟨_, rfl⟩
      · split
        · exact .inr ⟨_, _, rfl⟩
        · exact .inl ⟨_, rfl⟩
    obtain ⟨rest, htake⟩ | ⟨v, rest, htake⟩ := hcases
    · rw [htake]
      exact hfailing rest
    · rw [htake] at h
      cases h

theorem askedFor_succ (r : Refrigerator) (n : Nat) : r.askedFor (n + 1) = r.take.2.askedFor n := rfl

theorem askedFor_add (r : Refrigerator) (m n : Nat) :
    r.askedFor (m + n) = (r.askedFor m).askedFor n := by
  rw [Nat.add_comm]
  exact Function.iterate_add_apply _ n m r

/-- A refrigerator is asked for one number after the other, and is empty behind the
last. -/
theorem take_askedFor (h : r.Stocks vs) (n : Nat) :
    (r.askedFor n).take.1 = vs[n]? ∧ (vs[n]? = none → (r.askedFor n).take.2 = empty) := by
  induction n generalizing r vs with
  | zero =>
    cases vs with
    | nil =>
      have htake := take_of_stocks_nil h
      exact ⟨congrArg Prod.fst htake, fun _ => congrArg Prod.snd htake⟩
    | cons v vs => exact ⟨(take_of_stocks_cons h).1, by simp⟩
  | succ n ih =>
    rw [askedFor_succ]
    cases vs with
    | nil =>
      have hempty : r.take.2.Stocks [] := by
        rw [take_of_stocks_nil h]
        rfl
      simpa using ih hempty
    | cons v vs => simpa using ih (take_of_stocks_cons h).2

/-- Once it has failed, a refrigerator is left in the same state whenever it is asked
again. -/
theorem take_askedFor_of_failed (h : r.take.1 = none) (n : Nat) :
    (r.askedFor n).take = (none, r.take.2) := by
  induction n generalizing r with
  | zero => exact Prod.ext h rfl
  | succ n ih =>
    have hagain := take_of_failed h
    rw [askedFor_succ, ih (congrArg Prod.fst hagain), hagain]

end Refrigerator

/-! ## The statements of a run -/

namespace Program

/-- The recipe that a statement serves with, if it does so within the limit. -/
def served? (p : Program) (limit depth : UInt32) (i : Instruction) : Option Recipe :=
  if i.action = .serveWith ∧ (limit = 0 ∨ depth + 1 ≤ limit) then p.find? i.name else none

/-- The moves of a recipe and of all recipes that are served with it, in the order
they are begun. -/
def everyMove (p : Program) (limit : UInt32) : Nat → UInt32 → Frame → Kitchen → List Move
  | 0, _, _, _ => []
  | fuel + 1, depth, f, k =>
    match f.recipe.instructions[f.ip]? with
    | none => []
    | some i =>
      let turn := p.turn limit fuel depth i f k
      p.move limit fuel depth i f k ::
        ((match p.served? limit depth i with
          | some recipe => everyMove p limit fuel (depth + 1) (f.servedWith recipe) k
          | none => []) ++
        match turn.outcome with
        | .goesOn => everyMove p limit fuel depth turn.frame turn.kitchen
        | .ends _ => [])

/-- Whether recipes are cooked one after the other in the same kitchen, in any
frames, at any depth and however each of them ends, and which moves that takes. -/
inductive Session (p : Program) (limit : UInt32) : Kitchen → List Move → Kitchen → Prop where
  | start (k : Kitchen) : Session p limit k [] k
  | cook {k k' : Kitchen} {ms : List Move} (h : Session p limit k ms k') (fuel : Nat)
    (depth : UInt32) (f : Frame) :
    Session p limit k (ms ++ p.everyMove limit fuel depth (f.jump 0) k')
      (p.cook limit fuel depth f k').kitchen

end Program

/-- Whether a move asks the refrigerator for a number: it takes one into an
ingredient that there is. -/
def Move.isTaking (m : Move) : Bool :=
  m.statement.action = .take && m.frame.ingredients.contains m.statement.ingredient

section

variable {p : Program} {limit depth : UInt32} {fuel : Nat} {cook : Cook} {i : Instruction}
  {f : Frame} {k : Kitchen}

/-- The moves that a statement makes by the recipe it serves with. -/
def Program.servedMoves (p : Program) (limit : UInt32) (fuel : Nat) (depth : UInt32)
    (i : Instruction) (f : Frame) (k : Kitchen) : List Move :=
  match p.served? limit depth i with
  | some recipe => p.everyMove limit fuel (depth + 1) (f.servedWith recipe) k
  | none => []

theorem everyMove_of_none (hi : f.recipe.instructions[f.ip]? = none) :
    p.everyMove limit (fuel + 1) depth f k = [] := by
  rw [Program.everyMove, hi]

theorem everyMove_of_goesOn (hi : f.recipe.instructions[f.ip]? = some i)
    (ho : (p.turn limit fuel depth i f k).outcome = .goesOn) :
    p.everyMove limit (fuel + 1) depth f k =
      p.move limit fuel depth i f k :: (p.servedMoves limit fuel depth i f k ++
        p.everyMove limit fuel depth (p.turn limit fuel depth i f k).frame
          (p.turn limit fuel depth i f k).kitchen) := by
  rw [Program.everyMove, hi]
  simp only [ho]
  rfl

theorem everyMove_of_ends {e : Ending} (hi : f.recipe.instructions[f.ip]? = some i)
    (ho : (p.turn limit fuel depth i f k).outcome = .ends e) :
    p.everyMove limit (fuel + 1) depth f k =
      p.move limit fuel depth i f k :: p.servedMoves limit fuel depth i f k := by
  rw [Program.everyMove, hi]
  simp only [ho, List.append_nil]
  rfl

/-! ### Who asks for numbers -/

theorem takeStep_of_get? {b : Binding} (hb : f.ingredients.get? i.ingredient = some b) :
    (takeStep i f k).caught i.location =
      match k.refrigerator.take.1 with
      | some n =>
        .goOn
          { f with
            ingredients := f.ingredients.insert i.ingredient
              { b with value := { number := n, liquid := b.kind = .liquid } }
            ip := f.ip + 1 }
          { k with refrigerator := k.refrigerator.take.2 }
      | none =>
        .fail f { k with refrigerator := k.refrigerator.take.2 }
          (if k.refrigerator.take.2 = .empty then .nothingLeft else .notANumber) := by
  unfold takeStep Frame.ingredient
  simp only [hb]
  cases k.refrigerator.take.1 with
  | none => rfl
  | some n => simp only [Frame.setValue, hb, Frame.advance, Trial.caught_ok]

theorem refrigerator_takeStep : ((takeStep i f k).caught i.location).kitchen.refrigerator =
    if f.ingredients.contains i.ingredient then k.refrigerator.take.2 else k.refrigerator := by
  rw [Shelf.contains]
  cases hb : f.ingredients.get? i.ingredient with
  | none =>
    unfold takeStep Frame.ingredient
    simp only [hb]
    rfl
  | some b =>
    rw [takeStep_of_get? hb]
    cases k.refrigerator.take.1 <;> rfl

theorem refrigerator_mixStep : (mixStep fuel i f k).kitchen.refrigerator = k.refrigerator := by
  unfold mixStep
  cases (f.bowl i.bowl).shuffle fuel k.shuffler <;> rfl

theorem refrigerator_serveStep {count : Int64} {next : Frame → Kitchen → Turn}
    (hnext : ∀ f k, (next f k).kitchen.refrigerator = k.refrigerator) :
    (serveStep count f k next).kitchen.refrigerator = k.refrigerator := by
  unfold serveStep
  simp only
  cases (Served.firstDishes f.dishes k.served count).refused with
  | some n => rfl
  | none => exact hnext _ _

theorem refrigerator_refrigerateStep :
    (refrigerateStep depth i f k).kitchen.refrigerator = k.refrigerator := by
  unfold refrigerateStep
  cases i.count with
  | none => rfl
  | some count =>
    simp only
    split
    · exact refrigerator_serveStep fun _ _ => rfl
    · rfl

/-- A statement that serves with no other recipe asks the refrigerator once if it
takes a number into an ingredient that there is, and not at all otherwise. -/
theorem refrigerator_step (hwith : i.action ≠ .serveWith) :
    (step p limit fuel cook depth i f k).kitchen.refrigerator =
      if i.action = .take ∧ f.ingredients.contains i.ingredient then k.refrigerator.take.2
      else k.refrigerator := by
  unfold step tryStep
  cases ha : i.action <;> simp only [true_and, reduceCtorEq, false_and, if_false, Trial.caught_ok]
  case take => exact refrigerator_takeStep
  case mix => exact refrigerator_mixStep
  case pour | setAside => rfl
  case loopStart => rw [kitchen_loopStartStep]
  case loopEnd => rw [kitchen_loopEndStep]
  case serveWith => exact absurd ha hwith
  case refrigerate => exact refrigerator_refrigerateStep
  case serve =>
    split
    · exact refrigerator_serveStep fun _ _ => rfl
    · rfl
  all_goals rw [kitchen_ofAttempt]

/-- A statement that serves with another recipe leaves the kitchen as that recipe
leaves it, or as it was if nothing is served with. -/
theorem kitchen_turn_serveWith (ha : i.action = .serveWith) :
    (p.turn limit fuel depth i f k).kitchen =
      match p.served? limit depth i with
      | some recipe => (cookFrom p limit fuel (depth + 1) (f.servedWith recipe) k).kitchen
      | none => k := by
  unfold Program.turn Program.served?
  cases hr : p.find? i.name with
  | none =>
    rw [step_serveWith_of_none ha hr]
    split
    · next h => split at h <;> cases h
    · rfl
  | some recipe =>
    rw [step_serveWith ha hr]
    by_cases hlimit : limit = 0 ∨ depth + 1 ≤ limit
    · rw [if_neg (shallow_iff.1 hlimit), if_pos ⟨ha, hlimit⟩]
      rw [kitchen_ofCooked]
    · rw [if_pos (Decidable.not_not.1 fun h => hlimit (shallow_iff.2 h)),
        if_neg fun h => hlimit h.2]
      rfl

end

/-! ## Numbers in order -/

/-- Whether moves ask a refrigerator for numbers one after the other, and what they
leave of it. -/
structure HandsOut (r : Refrigerator) (takings : List Move) (r' : Refrigerator) : Prop where
  each : ∀ (n : Nat) m, takings[n]? = some m → m.kitchen.refrigerator = r.askedFor n
  left : r' = r.askedFor takings.length

section

variable {p : Program} {limit depth : UInt32} {fuel : Nat} {i : Instruction} {f : Frame}
  {k k' : Kitchen} {r r₁ r' : Refrigerator} {ms ms' : List Move} {m : Move}

theorem handsOut_nil (r : Refrigerator) : HandsOut r [] r := ⟨by simp, rfl⟩

theorem HandsOut.append (h : HandsOut r ms r₁) (h' : HandsOut r₁ ms' r') :
    HandsOut r (ms ++ ms') r' := by
  constructor
  · intro n m hm
    rw [List.getElem?_append] at hm
    split at hm
    · exact h.each n m hm
    · next hle =>
      rw [h'.each _ m hm, h.left, ← Refrigerator.askedFor_add]
      congr 1
      omega
  · rw [h'.left, h.left, ← Refrigerator.askedFor_add, List.length_append]

theorem handsOut_singleton (hm : m.kitchen.refrigerator = r) :
    HandsOut r ([m].filter Move.isTaking) (if m.isTaking then r.take.2 else r) := by
  split
  · next htaking =>
    rw [List.filter_cons_of_pos htaking, List.filter_nil]
    refine ⟨fun n m' hm' => ?_, rfl⟩
    rw [List.getElem?_singleton] at hm'
    split at hm'
    · next hn =>
      cases hm'
      rw [hn]
      exact hm
    · cases hm'
  · next htaking =>
    rw [List.filter_cons_of_neg htaking]
    exact handsOut_nil r

/-- A statement, with all that it serves with, asks for numbers one after the
other. -/
theorem handsOut_turn (depth : UInt32) (i : Instruction) (f : Frame) (k : Kitchen)
    (ih : ∀ depth f k, HandsOut k.refrigerator
      ((p.everyMove limit fuel depth f k).filter Move.isTaking)
      (cookFrom p limit fuel depth f k).kitchen.refrigerator) :
    HandsOut k.refrigerator
      ((p.move limit fuel depth i f k :: p.servedMoves limit fuel depth i f k).filter
        Move.isTaking)
      (p.turn limit fuel depth i f k).kitchen.refrigerator := by
  have hmove := handsOut_singleton (m := p.move limit fuel depth i f k) (r := k.refrigerator) rfl
  rw [← List.singleton_append, List.filter_append]
  by_cases ha : i.action = .serveWith
  · rw [if_neg (by simp [Move.isTaking, Program.move, ha])] at hmove
    refine hmove.append ?_
    rw [kitchen_turn_serveWith ha, Program.servedMoves]
    cases p.served? limit depth i with
    | none => exact handsOut_nil _
    | some recipe => exact ih _ _ _
  · have hnone : p.served? limit depth i = none := by
      rw [Program.served?, if_neg fun h => ha h.1]
    have hturn : (p.turn limit fuel depth i f k).kitchen.refrigerator =
        if (p.move limit fuel depth i f k).isTaking then k.refrigerator.take.2
        else k.refrigerator := by
      rw [Program.turn, refrigerator_step ha]
      exact if_congr (by rw [Move.isTaking, Bool.and_eq_true, decide_eq_true_eq]; rfl) rfl rfl
    rw [hturn, Program.servedMoves, hnone]
    exact hmove.append (handsOut_nil _)

/-- A recipe asks for numbers one after the other, whatever is served with it. -/
theorem handsOut_everyMove (depth : UInt32) (f : Frame) (k : Kitchen) :
    HandsOut k.refrigerator ((p.everyMove limit fuel depth f k).filter Move.isTaking)
      (cookFrom p limit fuel depth f k).kitchen.refrigerator := by
  induction fuel generalizing depth f k with
  | zero => exact handsOut_nil _
  | succ fuel ih =>
    cases hi : f.recipe.instructions[f.ip]? with
    | none =>
      rw [everyMove_of_none hi, cookFrom_of_none hi]
      exact handsOut_nil _
    | some i =>
      have hturn := handsOut_turn depth i f k ih
      cases ho : (p.turn limit fuel depth i f k).outcome with
      | goesOn =>
        rw [everyMove_of_goesOn hi ho, cookFrom_of_goesOn hi ho, ← List.cons_append,
          List.filter_append]
        exact hturn.append (ih _ _ _)
      | ends e =>
        rw [everyMove_of_ends hi ho, cookFrom_of_ends hi ho]
        exact hturn

/-- Recipes that are cooked after one another ask for numbers one after the other. -/
theorem handsOut_of_session (h : p.Session limit k ms k') :
    HandsOut k.refrigerator (ms.filter Move.isTaking) k'.refrigerator := by
  induction h with
  | start => exact handsOut_nil _
  | cook h fuel depth f ih =>
    rw [List.filter_append]
    exact ih.append (handsOut_everyMove depth (f.jump 0) _)

/-- A move is what its statement leads to. -/
theorem exists_turn_of_mem_everyMove (hm : m ∈ p.everyMove limit fuel depth f k) :
    ∃ fuel depth, m.turn = p.turn limit fuel depth m.statement m.frame m.kitchen := by
  induction fuel generalizing depth f k with
  | zero => cases hm
  | succ fuel ih =>
    cases hi : f.recipe.instructions[f.ip]? with
    | none =>
      rw [everyMove_of_none hi] at hm
      cases hm
    | some i =>
      have hturn (hm : m ∈ p.move limit fuel depth i f k ::
          p.servedMoves limit fuel depth i f k) :
          ∃ fuel depth, m.turn = p.turn limit fuel depth m.statement m.frame m.kitchen := by
        rcases List.mem_cons.1 hm with rfl | hm
        · exact ⟨fuel, depth, rfl⟩
        · rw [Program.servedMoves] at hm
          split at hm
          · exact ih hm
          · cases hm
      cases ho : (p.turn limit fuel depth i f k).outcome with
      | goesOn =>
        rw [everyMove_of_goesOn hi ho, ← List.cons_append, List.mem_append] at hm
        exact hm.elim hturn ih
      | ends e =>
        rw [everyMove_of_ends hi ho] at hm
        exact hturn hm

theorem exists_turn_of_session (h : p.Session limit k ms k') (hm : m ∈ ms) :
    ∃ fuel depth, m.turn = p.turn limit fuel depth m.statement m.frame m.kitchen := by
  induction h with
  | start => cases hm
  | cook h fuel depth f ih =>
    rcases List.mem_append.1 hm with hm | hm
    · exact ih hm
    · exact exists_turn_of_mem_everyMove hm

/-- A move that asks for a number takes what the refrigerator hands out. -/
theorem turn_of_isTaking (h : p.Session limit k ms k') {n : Nat}
    (hm : (ms.filter Move.isTaking)[n]? = some m) :
    ∃ b, m.frame.ingredients.get? m.statement.ingredient = some b ∧
      m.turn = match (k.refrigerator.askedFor n).take.1 with
        | some v =>
          .goOn
            { m.frame with
              ingredients := m.frame.ingredients.insert m.statement.ingredient
                { b with value := { number := v, liquid := b.kind = .liquid } }
              ip := m.frame.ip + 1 }
            { m.kitchen with refrigerator := (k.refrigerator.askedFor n).take.2 }
        | none =>
          .fail m.frame { m.kitchen with refrigerator := (k.refrigerator.askedFor n).take.2 }
            (if (k.refrigerator.askedFor n).take.2 = .empty then .nothingLeft
              else .notANumber) := by
  obtain ⟨hmem, htaking⟩ := List.mem_filter.1 (List.mem_of_getElem? hm)
  simp only [Move.isTaking, Bool.and_eq_true, decide_eq_true_eq] at htaking
  obtain ⟨ha, hdeclared⟩ := htaking
  obtain ⟨b, hb⟩ := Option.isSome_iff_exists.1 hdeclared
  obtain ⟨fuel, depth, hturn⟩ := exists_turn_of_session h hmem
  refine ⟨b, hb, ?_⟩
  rw [← (handsOut_of_session h).each n m hm, ← takeStep_of_get? hb, hturn]
  unfold Program.turn step tryStep
  simp only [ha]

end

/-- The refrigerator hands out its numbers in order, in a kitchen where recipes are
cooked one after the other.

If it holds numbers with white space between them, then of all statements that take a
number into an ingredient that there is, in whichever recipe and at whatever depth,
each takes the next of these numbers, as a liquid value exactly if the ingredient is
liquid; behind the last number each fails because there is nothing left, and leaves
its frame as it was.  Whatever the refrigerator holds, once such a statement has
failed, every later one fails for the same reason, told of its own recipe.  No other
statement changes what is left. -/
theorem takings_in_order {p : Program} {limit : UInt32} {k k' : Kitchen} {ms : List Move}
    (h : p.Session limit k ms k') :
    let takings := ms.filter Move.isTaking
    (∀ text vs, k.refrigerator = .stocked text → Refrigerator.Holds text vs →
      ∀ (n : Nat) m, takings[n]? = some m →
        ∃ b, m.frame.ingredients.get? m.statement.ingredient = some b ∧
          (∀ v, vs[n]? = some v → m.turn.outcome = .goesOn ∧
            m.turn.frame =
              { m.frame with
                ingredients := m.frame.ingredients.insert m.statement.ingredient
                  { b with value := { number := v, liquid := b.kind = .liquid } }
                ip := m.frame.ip + 1 }) ∧
          (vs.length ≤ n → m.turn.frame = m.frame ∧ m.turn.outcome =
            .ends (.failed { recipe := m.frame.recipe.name, cause := .nothingLeft }))) ∧
    (∀ (n n' : Nat) m m' e, n < n' → takings[n]? = some m → takings[n']? = some m' →
      m.turn.outcome = .ends (.failed e) →
        m'.turn.frame = m'.frame ∧ m'.turn.outcome =
          .ends (.failed { recipe := m'.frame.recipe.name, cause := e.cause })) ∧
    k'.refrigerator = k.refrigerator.askedFor takings.length ∧
    RunError.Cause.message .nothingLeft = "There is nothing left in the refrigerator" := by
  intro takings
  refine ⟨fun text vs htext hholds n m hm => ?_, fun n n' m m' e hlt hm hm' he => ?_,
    (handsOut_of_session h).left, rfl⟩
  · obtain ⟨b, hb, hturn⟩ := turn_of_isTaking h hm
    have hstocks : k.refrigerator.Stocks vs := by
      rw [htext]
      exact hholds
    obtain ⟨hnumber, hempty⟩ := Refrigerator.take_askedFor hstocks n
    refine ⟨b, hb, fun v hv => ?_, fun hn => ?_⟩
    · rw [hturn, hnumber, hv]
      exact ⟨rfl, rfl⟩
    · have hnone : vs[n]? = none := List.getElem?_eq_none hn
      rw [hturn, hnumber, hnone, hempty hnone]
      exact ⟨rfl, rfl⟩
  · obtain ⟨b, -, hturn⟩ := turn_of_isTaking h hm
    obtain ⟨b', -, hturn'⟩ := turn_of_isTaking h hm'
    cases hnumber : (k.refrigerator.askedFor n).take.1 with
    | some v =>
      rw [hturn, hnumber] at he
      cases he
    | none =>
      have hagain : (k.refrigerator.askedFor n').take =
          (none, (k.refrigerator.askedFor n).take.2) := by
        obtain ⟨d, rfl⟩ := Nat.exists_eq_add_of_le hlt.le
        rw [Refrigerator.askedFor_add]
        exact Refrigerator.take_askedFor_of_failed hnumber d
      rw [hturn, hnumber] at he
      cases he
      rw [hturn', hagain]
      exact ⟨rfl, rfl⟩

/-- A soup that takes the smallest number there is into its water and is served with
a salad that takes the number behind it; when the soup is cooked again in the same
kitchen, there is nothing left. -/
theorem takings_in_order_soup :
    let soup : Recipe :=
      { name := "Soup"
        ingredients := [{ name := "water", kind := .liquid }]
        instructions := [{ action := .take, ingredient := "water" },
          { action := .serveWith, name := "salad" }] }
    let salad : Recipe :=
      { name := "Salad"
        ingredients := [{ name := "salt", kind := .dry }]
        instructions := [{ action := .take, ingredient := "salt" }] }
    let p : Program :=
      { recipes := (Shelf.empty.insert soup.name.lower soup).insert salad.name.lower salad }
    let k := Kitchen.prepare (.stocked " -9223372036854775808 +7 ") 0
    ∃ ms k', p.Session 0 k ms k' ∧ ∃ m₀ m₁ m₂, ms.filter Move.isTaking = [m₀, m₁, m₂] ∧
      (m₀.turn.frame.ingredients.get? "water").map Binding.value =
        some { number := -9223372036854775808, liquid := true } ∧
      (m₁.turn.frame.ingredients.get? "salt").map Binding.value =
        some { number := 7, liquid := false } ∧
      m₂.turn.frame = m₂.frame ∧
      m₂.turn.outcome = .ends (.failed { recipe := "Soup", cause := .nothingLeft }) := by
  intro soup salad p k
  have hstart : p.Session 0 k [] k := .start k
  have hsession := (hstart.cook 9 0 (.ofRecipe soup)).cook 9 0 (.ofRecipe soup)
  have hleast : Decimal.Signed "-9223372036854775808" (-9223372036854775808 : Int64).toInt := by
    have hnotation : Decimal.ofInt64 (-9223372036854775808) = "-9223372036854775808" := by
      decide +kernel
    rw [← hnotation]
    exact Decimal.signed_ofInt64 _
  have hseven : Decimal.Signed "+7" (7 : Int64).toInt :=
    .plus (List.cons_ne_nil _ _) (List.all_eq_true.1 rfl)
  have hblank : ∀ b ∈ Text.ofString " ", Decimal.isSpace b := List.all_eq_true.1 rfl
  have hapart (rest : Text) : ∀ b, (Text.ofString " " ++ rest).head? = some b →
      Decimal.isSpace b := by
    rintro b ⟨⟩
    rfl
  have hholds : Refrigerator.Holds " -9223372036854775808 +7 " [-9223372036854775808, 7] :=
    .number hblank hleast (hapart "+7 ") (.number hblank hseven (hapart []) (.nothing hblank))
  obtain ⟨hinOrder, -⟩ := takings_in_order hsession
  obtain ⟨b₀, hb₀, h₀, -⟩ := hinOrder _ _ rfl hholds 0 _ rfl
  obtain ⟨b₁, hb₁, h₁, -⟩ := hinOrder _ _ rfl hholds 1 _ rfl
  obtain ⟨b₂, hb₂, -, h₂⟩ := hinOrder _ _ rfl hholds 2 _ rfl
  refine ⟨_, _, hsession, _, _, _, rfl, ?_, ?_, (h₂ le_rfl).1, (h₂ le_rfl).2⟩
  · rw [(h₀ _ rfl).2]
    cases hb₀
    decide
  · rw [(h₁ _ rfl).2]
    cases hb₁
    decide

end Cookbook
