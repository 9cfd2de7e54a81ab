import Cookbook.Proofs.Cooking.Countdown

/-!
# Cookbook.Proofs.Cooking.Reckoning

Reckoning with the top of a bowl.  Sums, differences and products always have a
result, the one 64-bit number that differs from the exact one by a multiple of
2^64 (`IsResidue`).  A quotient has none if it is divided by 0 or is too
large, and is exact otherwise (`Divides`).  The result takes the place of
the top of the bowl, and all else stays as it is (`Frame.Retopped`).
-/

namespace Cookbook

/-! ## Results -/

/-- Whether a number is what an integer leaves in 64 bits. -/
def IsResidue (n : Int64) (z : Int) : Prop := n.toInt % UInt64.size = z % UInt64.size

/-- An integer leaves one number only. -/
theorem IsResidue.unique {m n : Int64} {z : Int} (hm : IsResidue m z) (hn : IsResidue n z) :
    m = n := by
  have hsame : m.toInt % UInt64.size = n.toInt % UInt64.size := hm.trans hn.symm
  have hrange (n : Int64) : -9223372036854775808 ≤ n.toInt ∧ n.toInt < 9223372036854775808 :=
    ⟨n.le_toInt, n.toInt_lt⟩
  have := hrange m
  have := hrange n
  exact Int64.toInt.inj (by simp only [UInt64.size] at hsame; omega)

/-- Taking away what was added gives the number back. -/
theorem IsResidue.sub_of_add {a sum difference : Int64} {z : Int}
    (hsum : IsResidue sum (a.toInt + z)) (hdifference : IsResidue difference (sum.toInt - z)) :
    difference = a := by
  refine hdifference.unique ?_
  simp only [IsResidue, UInt64.size] at hsum ⊢
  omega

theorem isResidue_add (a b : Int64) : IsResidue (a + b) (a.toInt + b.toInt) := by
  rw [IsResidue, Int64.toInt_add]
  exact Int.bmod_emod

theorem isResidue_sub (a b : Int64) : IsResidue (a - b) (a.toInt - b.toInt) := by
  rw [IsResidue, Int64.toInt_sub]
  exact Int.bmod_emod

theorem isResidue_mul (a b : Int64) : IsResidue (a * b) (a.toInt * b.toInt) := by
  rw [IsResidue, Int64.toInt_mul]
  exact Int.bmod_emod

/-- Whether there is a quotient that is a 64-bit number. -/
def Divides (a b : Int64) : Prop := ¬ (b = 0 ∨ a = Int64.minValue ∧ b = -1)

/-- A quotient that there is is the exact one, rounded towards zero. -/
theorem Divides.toInt_div {a b : Int64} (h : Divides a b) :
    (a / b).toInt = a.toInt.tdiv b.toInt := by
  by_cases ha : a = Int64.minValue
  · exact Int64.toInt_div_of_ne_right a b fun hb => h (.inr ⟨ha, hb⟩)
  · exact Int64.toInt_div_of_ne_left a b ha

theorem quotient_eq_ok {a b : Int64} (h : Divides a b) (i : Instruction) :
    Frame.quotient i a b = .ok (a / b) := by
  rw [Divides, not_or] at h
  rw [Frame.quotient, if_neg h.1, if_neg h.2]

theorem quotient_eq_error {a b : Int64} (h : ¬ Divides a b) (i : Instruction) :
    ∃ cause, Frame.quotient i a b = .error cause := by
  unfold Frame.quotient
  by_cases hb : b = 0
  · exact ⟨_, if_pos hb⟩
  · rw [if_neg hb, if_pos ((Classical.not_not.1 h).resolve_left hb)]
    exact ⟨_, rfl⟩

/-! ## Bowls -/

/-- Whether a frame differs from another one only in that a value has taken the
place of the top of a bowl, and that it has come to the next statement. -/
structure Frame.Retopped (f : Frame) (n : UInt32) (v : Value) (rest : List Value) (f' : Frame) :
    Prop where
  recipe : f'.recipe = f.recipe
  bowl : f'.bowls.get? n = some { items := v :: rest }
  bowls : ∀ m, m ≠ n → f'.bowls.get? m = f.bowls.get? m
  dishes : f'.dishes = f.dishes
  ingredients : f'.ingredients = f.ingredients
  next : f'.ip = f.ip + 1

/-- The sum, difference or product that a statement asks for. -/
def Action.exact? : Action → Option (Int → Int → Int)
  | .add => some (· + ·)
  | .remove => some (· - ·)
  | .combine => some (· * ·)
  | _ => none

section

variable {p : Program} {limit depth : UInt32} {fuel : Nat} {i j : Instruction} {f : Frame}
  {k : Kitchen} {b : Binding} {top : Value} {rest : List Value}

theorem retopped_setBowl (v : Value) :
    f.Retopped i.bowl v rest (f.setBowl i.bowl { items := v :: rest }).advance where
  recipe := rfl
  bowl := f.bowls.get?_insert_self i.bowl _
  bowls _ hm := f.bowls.get?_insert_of_ne _ hm
  dishes := rfl
  ingredients := rfl
  next := rfl

theorem turn_divide (ha : i.action = .divide) :
    p.turn limit fuel depth i f k =
      (Trial.ofAttempt (f.reckon i (Frame.quotient i)) k).caught i.location := by
  unfold Program.turn step tryStep
  rw [ha]

variable (hb : f.ingredients.get? i.ingredient = some b)
  (hbowl : f.bowls.get? i.bowl = some { items := top :: rest })

include hb hbowl

/-- Reckoning puts its result in place of the top, or fails and changes nothing. -/
theorem reckon_eq (op : Int64 → Int64 → Except RunError.Cause Int64) :
    f.reckon i op =
      match op top.number b.value.number with
      | .error cause => { frame := f, fault := some (.tells cause) }
      | .ok n =>
        { frame := f.setBowl i.bowl
            { items := { number := n, liquid := b.value.liquid } :: rest } } := by
  have hitems : f.bowl i.bowl = { items := top :: rest } := by rw [Frame.bowl, hbowl]; rfl
  rw [Frame.reckon, Frame.ingredient_eq_ok_iff.2 hb, hitems]
  rfl

/-- A sum, difference or product is never refused. -/
theorem turn_exact {op : Int → Int → Int} (hop : i.action.exact? = some op) :
    ∃ n f', p.turn limit fuel depth i f k = .goOn f' k ∧
      f.Retopped i.bowl { number := n, liquid := b.value.liquid } rest f' ∧
      IsResidue n (op top.number.toInt b.value.number.toInt) := by
  have hgoes (n : Int64) (op : Int64 → Int64 → Except RunError.Cause Int64)
      (hn : op top.number b.value.number = .ok n) :
      (Trial.ofAttempt (f.reckon i op) k).caught i.location = .goOn (f.setBowl i.bowl
        { items := { number := n, liquid := b.value.liquid } :: rest }).advance k := by
    rw [reckon_eq hb hbowl, hn]
    rfl
  unfold Program.turn step tryStep
  cases ha : i.action <;> simp only [ha, Action.exact?, reduceCtorEq, Option.some.injEq] at hop ⊢
  case add => exact ⟨_, _, hgoes _ _ rfl, retopped_setBowl _, hop ▸ isResidue_add _ _⟩
  case remove => exact ⟨_, _, hgoes _ _ rfl, retopped_setBowl _, hop ▸ isResidue_sub _ _⟩
  case combine => exact ⟨_, _, hgoes _ _ rfl, retopped_setBowl _, hop ▸ isResidue_mul _ _⟩

theorem turn_divide_of_divides (ha : i.action = .divide)
    (h : Divides top.number b.value.number) :
    ∃ f', p.turn limit fuel depth i f k = .goOn f' k ∧
      f.Retopped i.bowl
        { number := top.number / b.value.number, liquid := b.value.liquid } rest f' := by
  rw [turn_divide ha, reckon_eq hb hbowl, quotient_eq_ok h]
  exact ⟨_, rfl, retopped_setBowl _⟩

theorem turn_divide_of_not_divides (ha : i.action = .divide)
    (h : ¬ Divides top.number b.value.number) :
    ∃ cause, p.turn limit fuel depth i f k = .fail f k cause := by
  obtain ⟨cause, hcause⟩ := quotient_eq_error h i
  rw [turn_divide ha, reckon_eq hb hbowl, hcause]
  exact ⟨cause, rfl⟩

/-- Taking away what was added gives the number back that was on top. -/
theorem carryOut_add_remove (hi : i.action = .add) (hj : j.action = .remove)
    (hingredient : j.ingredient = i.ingredient) (hsame : j.bowl = i.bowl) :
    ∃ f', p.carryOut limit fuel depth [i, j] f k = .goOn f' k ∧
      f'.bowls.get? i.bowl =
        some { items := { number := top.number, liquid := b.value.liquid } :: rest } := by
  have hadds : i.action.exact? = some (· + ·) := by rw [hi]; rfl
  have hremoves : j.action.exact? = some (· - ·) := by rw [hj]; rfl
  obtain ⟨sum, f₁, hturn₁, hf₁, hsum⟩ := turn_exact hb hbowl hadds
  have hb₁ : f₁.ingredients.get? j.ingredient = some b := by
    rw [hf₁.ingredients, hingredient, hb]
  obtain ⟨difference, f₂, hturn₂, hf₂, hdifference⟩ :=
    turn_exact hb₁ (hsame ▸ hf₁.bowl) hremoves
  refine ⟨f₂, ?_, ?_⟩
  · rw [Program.carryOut, hturn₁, Turn.goOn, Program.carryOut, hturn₂]
    rfl
  · rw [← hsame, hf₂.bowl, hsum.sub_of_add hdifference]

end

/-- Reckoning with the top of a bowl and an ingredient that is there.

Sums, differences and products always go on, with the one 64-bit number that is
congruent to the exact result.  A quotient fails if and only if it is one by 0 or
the one that is too large, and is otherwise the exact one, rounded towards zero.
The result is liquid if the ingredient is, and nothing but the top changes.  So
what was added to a number can be taken away again. -/
theorem turn_reckons {i : Instruction} {f : Frame} {b : Binding} {top : Value}
    {rest : List Value} (hb : f.ingredients.get? i.ingredient = some b)
    (hbowl : f.bowls.get? i.bowl = some { items := top :: rest }) (p : Program)
    (limit depth : UInt32) (fuel : Nat) (k : Kitchen) :
    let turn := p.turn limit fuel depth i f k
    let x := top.number
    let y := b.value.number
    let leaves (n : Int64) := ∃ f', turn = .goOn f' k ∧
      f.Retopped i.bowl { number := n, liquid := b.value.liquid } rest f'
    (∀ op, i.action.exact? = some op → ∃ n, leaves n ∧ IsResidue n (op x.toInt y.toInt) ∧
      ∀ m, IsResidue m (op x.toInt y.toInt) → m = n) ∧
    (i.action = .divide →
      ((∃ e, turn.outcome = .ends (.failed e)) ↔ y = 0 ∨ x = Int64.minValue ∧ y = -1) ∧
      (¬ (y = 0 ∨ x = Int64.minValue ∧ y = -1) →
        (∃ n, leaves n ∧ n.toInt = x.toInt.tdiv y.toInt) ∧
        Int64.minValue.toInt ≤ x.toInt.tdiv y.toInt ∧
        x.toInt.tdiv y.toInt ≤ Int64.maxValue.toInt)) ∧
    (i.action = .add → ∀ j, j.action = .remove → j.ingredient = i.ingredient →
      j.bowl = i.bowl → ∃ f', p.carryOut limit fuel depth [i, j] f k = .goOn f' k ∧
        f'.bowls.get? i.bowl =
          some { items := { number := x, liquid := b.value.liquid } :: rest }) := by
  intro turn x y leaves
  refine ⟨fun op hop => ?_, fun ha => ⟨?_, fun hdivides => ?_⟩, fun hi j hj => ?_⟩
  · obtain ⟨n, f', hturn, hf', hn⟩ := turn_exact hb hbowl hop
    exact ⟨n, ⟨f', hturn, hf'⟩, hn, fun m hm => hm.unique hn⟩
  · by_cases h : Divides x y
    · obtain ⟨f', hturn, -⟩ := turn_divide_of_divides hb hbowl ha h
      have hgoes : turn.outcome = .goesOn := congrArg Turn.outcome hturn
      refine iff_of_false ?_ h
      rintro ⟨e, hends⟩
      cases hgoes.symm.trans hends
    · obtain ⟨cause, hturn⟩ := turn_divide_of_not_divides hb hbowl ha h
      exact iff_of_true ⟨_, congrArg Turn.outcome hturn⟩ (Classical.not_not.1 h)
  · have hquotient := Divides.toInt_div hdivides
    refine ⟨⟨x / y, turn_divide_of_divides hb hbowl ha hdivides, hquotient⟩, ?_⟩
    rw [← hquotient]
    exact ⟨(x / y).minValue_le_toInt, (x / y).toInt_le⟩
  · exact carryOut_add_remove hb hbowl hi hj

/-- The number that is as low as can be comes to the highest one if 1 is taken away
from it, and cannot be divided by -1. -/
theorem turn_reckons_lowest :
    let r : Recipe := { name := "Pastry", ingredients := [{ name := "flour", value := some (-1) }] }
    let eggs : Value := { number := 2, liquid := true }
    let lowest : Value := { number := Int64.minValue, liquid := true }
    let f : Frame :=
      { Frame.ofRecipe r with bowls := .ofList [(1, .ofContents [eggs, lowest])] }
    let flour (a : Action) : Instruction := { action := a, ingredient := "flour" }
    ∀ (p : Program) (limit depth : UInt32) (fuel : Nat) (k : Kitchen),
      (∃ f', p.turn limit fuel depth (flour .add) f k = .goOn f' k ∧
        f'.bowls.get? 1 = some (.ofContents [eggs, { number := Int64.maxValue }])) ∧
      (∃ e, (p.turn limit fuel depth (flour .divide) f k).outcome = .ends (.failed e)) ∧
      ∃ f', p.carryOut limit fuel depth [flour .add, flour .remove] f k = .goOn f' k ∧
        f'.bowls.get? 1 = some (.ofContents [eggs, { number := Int64.minValue }]) := by
  intro r eggs lowest f flour p limit depth fuel k
  have hb (a : Action) : f.ingredients.get? (flour a).ingredient =
      some { value := { number := -1 }, kind := .either } := by
    change f.ingredients.get? "flour" = _
    decide
  have hbowl (a : Action) : f.bowls.get? (flour a).bowl = some { items := lowest :: [eggs] } := by
    change f.bowls.get? 1 = _
    decide
  have hreckons (a : Action) := turn_reckons (hb a) (hbowl a) p limit depth fuel k
  obtain ⟨hadd, -, hback⟩ := hreckons .add
  obtain ⟨-, hdivide, -⟩ := hreckons .divide
  refine ⟨?_, (hdivide rfl).1.2 (.inr ⟨rfl, rfl⟩), hback rfl (flour .remove) rfl rfl rfl⟩
  obtain ⟨n, ⟨f', hturn, hf'⟩, -, hunique⟩ := hadd (· + ·) rfl
  have hn : Int64.maxValue = n := hunique _ (by unfold IsResidue; decide)
  exact ⟨f', hturn, hn ▸ hf'.bowl⟩

end Cookbook
