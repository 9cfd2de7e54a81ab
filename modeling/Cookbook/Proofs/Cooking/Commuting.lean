import Cookbook.Proofs.Cooking.Countdown

/-!
# Cookbook.Proofs.Cooking.Commuting

Statements that are independent of each other can be carried out in either order.
Two statements are independent if they name different bowls and dishes and neither
gives an ingredient another value that the other looks at
(`Frame.Independent`).  Then each leaves alone what the other works on, so each
goes on behind the other if and only if it goes on by itself, and leaves there what
it leaves by itself (`carryOut_comm`).
-/

namespace Cookbook

/-! ## The total of the dry ingredients -/

namespace Shelf

variable {κ α : Type} [DecidableEq κ]

/-- Of things with different labels, those that pass a test are found as before. -/
theorem find?_filter {l : List (κ × α)} (hl : l.Pairwise fun a b => a.1 ≠ b.1)
    (test : α → Bool) (k : κ) :
    find? k (l.filter fun e => test e.2) = (find? k l).filter test := by
  induction l with
  | nil => rfl
  | cons e l ih =>
    rw [List.pairwise_cons] at hl
    have ih := ih hl.2
    rw [List.filter_cons, find?]
    by_cases hk : k = e.1
    · have hnone : find? k (l.filter fun e => test e.2) = none := by
        cases ha : find? k (l.filter fun e => test e.2) with
        | none => rfl
        | some a => exact absurd hk (hl.1 _ (List.mem_filter.1 (mem_of_find? ha)).1).symm
      rw [if_pos hk, Option.filter_some]
      split
      · rw [find?, if_pos hk]
      · exact hnone
    · rw [if_neg hk, ← ih]
      split
      · rw [find?, if_neg hk]
      · rfl

end Shelf

namespace Frame

variable {f f' : Frame} {x : Text}

/-- Whether an ingredient is one of the dry ones. -/
def IsDry (f : Frame) (x : Text) : Prop :=
  ∃ b, f.ingredients.get? x = some b ∧ b.kind = .dry

theorem dryTotal_eq_foldl_filter :
    f.dryTotal = (f.ingredients.entries.filter (·.2.kind = .dry)).foldl
      (fun total e => total + e.2.value.number) 0 := by
  rw [List.foldl_filter]
  simp only [dryTotal, decide_eq_true_eq]

theorem get?_filter_dry_of_not_isDry (h : ¬ f.IsDry x) :
    (f.ingredients.get? x).filter (·.kind = .dry) = none := by
  cases hb : f.ingredients.get? x with
  | none => rfl
  | some b => exact Option.filter_some_neg (by simpa using fun hdry => h ⟨b, hb, hdry⟩)

/-- Only the dry ingredients are added up. -/
theorem dryTotal_congr
    (h : ∀ x, f.IsDry x ∨ f'.IsDry x → f'.ingredients.get? x = f.ingredients.get? x) :
    f'.dryTotal = f.dryTotal := by
  have hpairwise (f : Frame) := f.ingredients.ascending
  have hdry : f'.ingredients.entries.filter (·.2.kind = .dry) =
      f.ingredients.entries.filter (·.2.kind = .dry) := by
    refine Shelf.eq_of_find?_eq ((hpairwise f').filter _) ((hpairwise f).filter _) fun x => ?_
    have hfind (f : Frame) : Shelf.find? x (f.ingredients.entries.filter (·.2.kind = .dry)) =
        (f.ingredients.get? x).filter (·.kind = .dry) :=
      Shelf.find?_filter ((hpairwise f).imp Shelf.ne_of_lt) (·.kind = .dry) x
    rw [hfind, hfind]
    by_cases hx : f.IsDry x ∨ f'.IsDry x
    · rw [h x hx]
    · rw [not_or] at hx
      rw [get?_filter_dry_of_not_isDry hx.1, get?_filter_dry_of_not_isDry hx.2]
  rw [dryTotal_eq_foldl_filter, dryTotal_eq_foldl_filter, hdry]

end Frame

/-! ## Statements at the bench -/

/-- Whether a statement with this action needs nothing but its recipe's own bowls,
dishes and ingredients, and goes on to the next statement. -/
def Action.onBench : Action → Bool
  | .put | .fold | .add | .remove | .combine | .divide | .addDry | .liquefy | .liquefyContents
  | .stir | .stirIngredient | .clean | .pour => true
  | _ => false

/-- Whether a statement looks at an ingredient.  Adding up the dry ones looks at all
of those. -/
def Instruction.LooksAt (i : Instruction) (f : Frame) (x : Text) : Prop :=
  i.Uses x ∨ i.action = .addDry ∧ f.IsDry x

/-- Whether two statements name different bowls and dishes, and neither gives an
ingredient another value that the other looks at. -/
structure Frame.Independent (f : Frame) (i j : Instruction) : Prop where
  bowls : i.action.namesBowl → j.action.namesBowl → i.bowl ≠ j.bowl
  dishes : i.action.namesDish → j.action.namesDish → i.dish ≠ j.dish
  left : ∀ x, i.Writes x → ¬ j.LooksAt f x
  right : ∀ x, j.Writes x → ¬ i.LooksAt f x

/-- Just what a statement names. -/
def Instruction.footprint (i : Instruction) : Footprint where
  bowls n := i.action.namesBowl ∧ i.bowl = n
  dishes n := i.action.namesDish ∧ i.dish = n
  ingredients := i.Uses
  place := False

theorem Instruction.footprint_covers (i : Instruction) : i.footprint.Covers i :=
  ⟨fun h => ⟨h, rfl⟩, fun h => ⟨h, rfl⟩, fun _ => id⟩

namespace Frame

/-- What a statement at the bench makes of a frame if it goes on. -/
structure Worked (f : Frame) (i : Instruction) (f' : Frame) : Prop extends f.Confined i f' where
  unwritten : ∀ x, ¬ i.Writes x → f'.ingredients.get? x = f.ingredients.get? x
  next : f'.ip = f.ip + 1

variable {f f' : Frame} {i j : Instruction} {x : Text}

theorem Independent.symm (h : f.Independent i j) : f.Independent j i where
  bowls hj hi := (h.bowls hi hj).symm
  dishes hj hi := (h.dishes hi hj).symm
  left := h.right
  right := h.left

/-- A bowl that one of two independent statements works on is none of the other's. -/
theorem Independent.not_bowls (h : f.Independent i j) {n : UInt32} (hi : i.footprint.bowls n) :
    ¬ j.footprint.bowls n :=
  fun hj => h.bowls hi.1 hj.1 (hi.2.trans hj.2.symm)

theorem Independent.not_dishes (h : f.Independent i j) {n : UInt32} (hi : i.footprint.dishes n) :
    ¬ j.footprint.dishes n :=
  fun hj => h.dishes hi.1 hj.1 (hi.2.trans hj.2.symm)

theorem Confined.get?_bowls (h : f.Confined i f') {n : UInt32} (hn : ¬ i.footprint.bowls n) :
    f'.bowls.get? n = f.bowls.get? n :=
  h.bowls n fun hnames hsame => hn ⟨hnames, hsame.symm⟩

theorem Confined.get?_dishes (h : f.Confined i f') {n : UInt32} (hn : ¬ i.footprint.dishes n) :
    f'.dishes.get? n = f.dishes.get? n :=
  h.dishes n fun hnames hsame => hn ⟨hnames, hsame.symm⟩

theorem Confined.isDry_iff (h : f.Confined i f') : f'.IsDry x ↔ f.IsDry x := by
  have hdry (f : Frame) : f.IsDry x ↔ (f.ingredients.get? x).map Binding.kind = some .dry := by
    simp [IsDry]
  rw [hdry, hdry, h.kinds]

/-- What a statement leaves is the same for all that an independent one works on. -/
theorem Worked.agreesOn (h : f.Worked i f') (hind : f.Independent i j) :
    f.AgreesOn j.footprint f' where
  bowls _ hn := h.get?_bowls (hind.symm.not_bowls hn)
  dishes _ hn := h.get?_dishes (hind.symm.not_dishes hn)
  ingredients x hx := h.unwritten x fun hwrites => hind.left x hwrites (.inl hx)
  ip := False.elim

theorem Worked.dryTotal (h : f.Worked i f') (hind : f.Independent i j)
    (ha : j.action = .addDry) : f'.dryTotal = f.dryTotal := by
  refine dryTotal_congr fun x hx => h.unwritten x fun hwrites => hind.left x hwrites (.inr ⟨ha, ?_⟩)
  exact hx.elim id h.isDry_iff.1

end Frame

section

variable {p : Program} {limit depth : UInt32} {fuel : Nat} {i j : Instruction} {f : Frame}
  {k : Kitchen}

theorem kitchen_turn_of_onBench (hi : i.action.onBench) :
    (p.turn limit fuel depth i f k).kitchen = k := by
  unfold Program.turn step tryStep
  cases ha : i.action <;> simp only [ha, Action.onBench, Bool.false_eq_true] at hi ⊢
  case pour => rfl
  all_goals exact kitchen_ofAttempt _ k _

theorem worked_turn (hi : i.action.onBench)
    (ho : (p.turn limit fuel depth i f k).outcome = .goesOn) :
    f.Worked i (p.turn limit fuel depth i f k).frame := by
  have hplain : ¬ Loops.IsTargeted i.action := by
    cases ha : i.action <;> simp_all [Loops.IsTargeted, Action.onBench]
  have hconfined : (p.turn limit fuel depth i f k).Careful p f i := by
    apply careful_step <;> rintro ha <;> rw [ha] at hi <;> cases hi
  refine ⟨hconfined.confined ho, fun x => get?_ingredients_step, ?_⟩
  have hmoved := turn_eq_goOn (n := f.ip) hplain ho
  exact congrArg (·.frame.ip) hmoved

/-- Behind an independent statement that goes on, a statement does what it does by
itself. -/
theorem agrees_turn_of_independent (hi : i.action.onBench) (hj : j.action.onBench)
    (hind : f.Independent i j) (ho : (p.turn limit fuel depth i f k).outcome = .goesOn) :
    (p.turn limit fuel depth j f k).AgreesOn j.footprint
      (p.turn limit fuel depth j (p.turn limit fuel depth i f k).frame k) := by
  -- the other statement changes neither what this one names nor what is dry
  have hworked := worked_turn hi ho
  refine agrees_step (hworked.agreesOn hind) j.footprint_covers ?_ ?_ ?_ (hworked.dryTotal hind)
    <;> intro ha <;> rw [ha] at hj <;> cases hj

end

/-! ## Either order -/

/-- Of two changes to different parts of a shelf, each leaves alone what the other
changes, so that either may be made first. -/
theorem Shelf.eq_of_swapped {κ α : Type} [Ord κ] [Std.TransOrd κ] [Std.LawfulEqOrd κ]
    [DecidableEq κ] {P Q : κ → Prop} {s s₁ s₂ s₁₂ s₂₁ : Shelf κ α} (hapart : ∀ k, P k → ¬ Q k)
    (h₁ : ∀ k, ¬ P k → s₁.get? k = s.get? k) (h₁₂ : ∀ k, ¬ Q k → s₁₂.get? k = s₁.get? k)
    (h₂ : ∀ k, ¬ Q k → s₂.get? k = s.get? k) (h₂₁ : ∀ k, ¬ P k → s₂₁.get? k = s₂.get? k)
    (hP : ∀ k, P k → s₂₁.get? k = s₁.get? k) (hQ : ∀ k, Q k → s₁₂.get? k = s₂.get? k) :
    s₁₂ = s₂₁ := by
  refine ext_get? fun k => ?_
  by_cases hp : P k
  · rw [h₁₂ k (hapart k hp), hP k hp]
  · by_cases hq : Q k
    · rw [hQ k hq, h₂₁ k hp]
    · rw [h₁₂ k hq, h₁ k hp, h₂₁ k hp, h₂ k hq]

/-- Frames that two independent statements leave in the one order and in the other
are equal. -/
theorem Frame.Worked.swap {f f₁ f₂ f₁₂ f₂₁ : Frame} {i j : Instruction}
    (hind : f.Independent i j) (h₁ : f.Worked i f₁) (h₁₂ : f₁.Worked j f₁₂) (h₂ : f.Worked j f₂)
    (h₂₁ : f₂.Worked i f₂₁) (hi : f₁.AgreesOn i.footprint f₂₁) (hj : f₂.AgreesOn j.footprint f₁₂) :
    f₁₂ = f₂₁ := by
  have hrecipe : f₁₂.recipe = f₂₁.recipe := by rw [h₁₂.recipe, h₁.recipe, h₂₁.recipe, h₂.recipe]
  have hbowls : f₁₂.bowls = f₂₁.bowls :=
    Shelf.eq_of_swapped (fun _ => hind.not_bowls) (fun _ => h₁.get?_bowls) (fun _ => h₁₂.get?_bowls)
      (fun _ => h₂.get?_bowls) (fun _ => h₂₁.get?_bowls) hi.bowls hj.bowls
  have hdishes : f₁₂.dishes = f₂₁.dishes :=
    Shelf.eq_of_swapped (fun _ => hind.not_dishes) (fun _ => h₁.get?_dishes)
      (fun _ => h₁₂.get?_dishes) (fun _ => h₂.get?_dishes) (fun _ => h₂₁.get?_dishes) hi.dishes
      hj.dishes
  have hingredients : f₁₂.ingredients = f₂₁.ingredients :=
    Shelf.eq_of_swapped (fun x hwrites hwrites' => hind.left x hwrites (.inl hwrites'.2))
      h₁.unwritten h₁₂.unwritten h₂.unwritten h₂₁.unwritten
      (fun x hwrites => hi.ingredients x hwrites.2) fun x hwrites => hj.ingredients x hwrites.2
  have hip : f₁₂.ip = f₂₁.ip := by rw [h₁₂.next, h₁.next, h₂₁.next, h₂.next]
  cases f₁₂
  cases f₂₁
  cases hrecipe
  cases hbowls
  cases hdishes
  cases hingredients
  cases hip
  rfl

section

variable {p : Program} {limit depth : UInt32} {fuel : Nat} {i j : Instruction}
  {is : List Instruction} {f : Frame} {k : Kitchen}

theorem turn_eq_goOn_of_onBench (hi : i.action.onBench)
    (ho : (p.turn limit fuel depth i f k).outcome = .goesOn) :
    p.turn limit fuel depth i f k = .goOn (p.turn limit fuel depth i f k).frame k := by
  have hkitchen : (p.turn limit fuel depth i f k).kitchen = k := kitchen_turn_of_onBench hi
  generalize p.turn limit fuel depth i f k = t at ho hkitchen ⊢
  cases t
  cases ho
  cases hkitchen
  rfl

theorem carryOut_pair (hi : i.action.onBench)
    (ho : (p.turn limit fuel depth i f k).outcome = .goesOn) :
    p.carryOut limit fuel depth [i, j] f k =
      p.turn limit fuel depth j (p.turn limit fuel depth i f k).frame k := by
  simp only [Program.carryOut, ho, kitchen_turn_of_onBench hi]
  generalize p.turn limit fuel depth j _ k = t
  obtain ⟨outcome, frame, kitchen⟩ := t
  cases outcome <;> rfl

theorem carryOut_cons_of_ne (ho : (p.turn limit fuel depth i f k).outcome ≠ .goesOn) :
    p.carryOut limit fuel depth (i :: is) f k = p.turn limit fuel depth i f k := by
  rw [Program.carryOut]
  cases hends : (p.turn limit fuel depth i f k).outcome with
  | goesOn => exact absurd hends ho
  | ends e => rfl

/-- One of two independent statements goes on behind the other if and only if it
goes on by itself. -/
theorem outcome_carryOut_pair (hi : i.action.onBench) (hj : j.action.onBench)
    (hind : f.Independent i j) :
    (p.carryOut limit fuel depth [i, j] f k).outcome = .goesOn ↔
      (p.turn limit fuel depth i f k).outcome = .goesOn ∧
        (p.turn limit fuel depth j f k).outcome = .goesOn := by
  by_cases ho : (p.turn limit fuel depth i f k).outcome = .goesOn
  · rw [carryOut_pair hi ho, (agrees_turn_of_independent hi hj hind ho).goesOn,
      and_iff_right ho]
  · rw [carryOut_cons_of_ne ho, iff_false_intro ho, false_and]

end

/-- Two statements at the bench that are independent of each other go on in the one
order if and only if they do in the other, and then leave the same: the same
frame, with the same bowls and dishes in it, and the same kitchen. -/
theorem carryOut_comm {i j : Instruction} {f : Frame} (hi : i.action.onBench)
    (hj : j.action.onBench) (hind : f.Independent i j) (p : Program) (limit depth : UInt32)
    (fuel : Nat) (k : Kitchen) :
    let first := p.carryOut limit fuel depth [i, j] f k
    let second := p.carryOut limit fuel depth [j, i] f k
    (first.outcome = .goesOn ↔ second.outcome = .goesOn) ∧
      (first.outcome = .goesOn → first = second) := by
  intro first second
  have hfirst : first.outcome = .goesOn ↔ _ := outcome_carryOut_pair hi hj hind
  have hsecond : second.outcome = .goesOn ↔ _ := outcome_carryOut_pair hj hi hind.symm
  refine ⟨hfirst.trans (and_comm.trans hsecond.symm), fun ho => ?_⟩
  obtain ⟨hoi, hoj⟩ := hfirst.1 ho
  have hagreesi := agrees_turn_of_independent hj hi hind.symm hoj
  have hagreesj := agrees_turn_of_independent hi hj hind hoi
  have hoij := hagreesj.goesOn.2 hoj
  have hoji := hagreesi.goesOn.2 hoi
  have hframe := Frame.Worked.swap hind (worked_turn hi hoi) (worked_turn hj hoij)
    (worked_turn hj hoj) (worked_turn hi hoji) hagreesi.frame hagreesj.frame
  calc first
    _ = p.turn limit fuel depth j (p.turn limit fuel depth i f k).frame k := carryOut_pair hi hoi
    _ = .goOn _ k := turn_eq_goOn_of_onBench hj hoij
    _ = .goOn _ k := congrArg (Turn.goOn · k) hframe
    _ = p.turn limit fuel depth i (p.turn limit fuel depth j f k).frame k :=
      (turn_eq_goOn_of_onBench hi hoji).symm
    _ = second := (carryOut_pair hj hoj).symm

/-- Water is taken out of one bowl while the flour goes into another, which is not
there before. -/
theorem carryOut_comm_pastry :
    let r : Recipe :=
      { name := "Pastry"
        ingredients := [{ name := "flour", value := some 3, kind := .dry },
          { name := "water", kind := .liquid }] }
    let f : Frame := { Frame.ofRecipe r with bowls := .ofList [(1, .ofContents [{ number := 5 }])] }
    let i : Instruction := { action := .fold, ingredient := "water", bowl := 1 }
    let j : Instruction := { action := .addDry, bowl := 2 }
    f.Independent i j ∧ ∀ (p : Program) (limit depth : UInt32) (fuel : Nat) (k : Kitchen),
      (p.carryOut limit fuel depth [i, j] f k).outcome = .goesOn ∧
        p.carryOut limit fuel depth [i, j] f k = p.carryOut limit fuel depth [j, i] f k := by
  intro r f i j
  have hwater : f.ingredients.get? "water" =
      some { value := { number := 0, liquid := true }, kind := .liquid } := by
    decide
  have hind : f.Independent i j := by
    refine ⟨fun _ _ => by decide, nofun, ?_, ?_⟩
    · rintro x ⟨-, -, rfl, -⟩ (huses | ⟨-, b, hb, hdry⟩)
      · cases huses.1
      · cases hwater.symm.trans hb
        cases hdry
    · rintro x ⟨hwrites, -⟩
      cases hwrites
  refine ⟨hind, fun p limit depth fuel k => ?_⟩
  have ho : (p.carryOut limit fuel depth [i, j] f k).outcome = .goesOn := rfl
  exact ⟨ho, (carryOut_comm rfl rfl hind p limit depth fuel k).2 ho⟩

end Cookbook
