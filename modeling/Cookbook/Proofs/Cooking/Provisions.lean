import Cookbook.Proofs.Cooking.Reckoning
import Mathlib.Data.List.Nodup
import Mathlib.Data.List.Perm.Basic

/-!
# Cookbook.Proofs.Cooking.Provisions

What a recipe has at hand stays at hand.  Whichever statements are carried out, and
whether they succeed or fail, the ingredients are those that were declared, each of
the kind it was declared with, and no bowl or dish is taken away
(`Frame.Keeps`, `keeps_turn`).  This holds of every frame that is ever come to
(`Frame.Reaches`, `keeps_of_reaches`), and so of every move of a recipe
(`reaches_of_mem_moves`).

The dry ingredients have one total.  It is the same in whatever order they are gone
through (`toInt64_tally`), because it is the residue of their sum
(`isResidue_dryTotal`).
-/

namespace Cookbook

/-! ## What is declared -/

/-- The last of the declarations of a name, which is the one that holds. -/
def Recipe.declared? (r : Recipe) (name : Text) : Option Ingredient :=
  r.ingredients.reverse.find? fun x => x.name = name

/-- An ingredient as it is when its recipe starts. -/
def Ingredient.binding (x : Ingredient) : Binding where
  value := { number := x.value.getD 0, liquid := x.kind = .liquid }
  kind := x.kind

/-- A name finds what the last of its declarations says. -/
theorem get?_declare_eq (is : List Ingredient) (name : Text) :
    (Frame.declare is).get? name =
      (is.reverse.find? fun x => x.name = name).map Ingredient.binding := by
  induction is using List.reverseRecOn with
  | nil => rfl
  | append_singleton is x ih =>
    have hlast : Frame.declare (is ++ [x]) = (Frame.declare is).insert x.name x.binding := by
      simp only [Frame.declare, Shelf.ofList, List.map_append, List.foldl_append]
      rfl
    rw [hlast, Shelf.get?_insert, List.reverse_append, List.reverse_singleton,
      List.singleton_append, List.find?_cons, ih]
    by_cases hx : name = x.name
    · simp [hx]
    · simp [hx, Ne.symm hx]

/-! ## What statements keep -/

/-- Whether a frame has the ingredients of another, each of the same kind, and at
least its bowls and dishes. -/
structure Frame.Keeps (f f' : Frame) : Prop where
  kinds : ∀ name,
    (f'.ingredients.get? name).map Binding.kind = (f.ingredients.get? name).map Binding.kind
  bowls : f.bowls.Within f'.bowls
  dishes : f.dishes.Within f'.dishes

/-- Whether a frame is come to from another by carrying out statements, whichever
they are, in whichever programs and kitchens and at whatever depth.  A statement may
fail, and the next one may stand anywhere. -/
inductive Frame.Reaches : Frame → Frame → Prop where
  | refl (f : Frame) : Reaches f f
  | jump {f f' : Frame} (h : Reaches f f') (ip : Nat) : Reaches f (f'.jump ip)
  | carryOut {f f' : Frame} (h : Reaches f f') (p : Program) (limit : UInt32) (fuel : Nat)
    (depth : UInt32) (i : Instruction) (k : Kitchen) :
    Reaches f (p.turn limit fuel depth i f' k).frame

namespace Frame

variable {f f' f'' : Frame}

theorem Keeps.refl (f : Frame) : f.Keeps f := ⟨fun _ => rfl, .refl _, .refl _⟩

theorem Keeps.trans (h : f.Keeps f') (h' : f'.Keeps f'') : f.Keeps f'' where
  kinds name := (h'.kinds name).trans (h.kinds name)
  bowls := h.bowls.trans h'.bowls
  dishes := h.dishes.trans h'.dishes

theorem Reaches.trans (h : f.Reaches f') (h' : f'.Reaches f'') : f.Reaches f'' := by
  induction h' with
  | refl => exact h
  | jump _ ip ih => exact ih.jump ip
  | carryOut _ p limit fuel depth i k ih => exact ih.carryOut p limit fuel depth i k

end Frame

theorem within_of_get?_eq {s t : Shelf UInt32 Stack} (h : ∀ n, t.get? n = s.get? n) :
    s.Within t := by
  intro n hn
  rwa [Shelf.contains, h n]

theorem within_dishesFrom (dishes : Shelf UInt32 Stack) (written : Array UInt8) (count n : Nat) :
    dishes.Within (Served.dishesFrom dishes written count n).dishes := by
  induction count generalizing dishes written n with
  | zero => exact .refl dishes
  | succ count ih =>
    rw [Served.dishesFrom]
    cases dishes.get? (UInt32.ofNat n) with
    | none => exact ih _ _ _
    | some dish =>
      simp only
      cases (Served.values _ dish.items).2.2 with
      | some c => exact dishes.within_insert _ _
      | none => exact (dishes.within_insert _ _).trans (ih _ _ _)

section

variable {p : Program} {limit depth : UInt32} {fuel : Nat} {i : Instruction} {f : Frame}
  {k : Kitchen}

theorem within_serveStep {count : Int64} {next : Frame → Kitchen → Turn}
    (hnext : ∀ f k, (next f k).frame.dishes = f.dishes) :
    f.dishes.Within (serveStep count f k next).frame.dishes := by
  have hserved : f.dishes.Within (Served.firstDishes f.dishes k.served count).dishes :=
    within_dishesFrom _ _ _ _
  unfold serveStep
  simp only
  cases (Served.firstDishes f.dishes k.served count).refused with
  | some n => exact hserved
  | none =>
    simp only [hnext]
    exact hserved

theorem within_refrigerateStep : f.dishes.Within (refrigerateStep depth i f k).frame.dishes := by
  unfold refrigerateStep
  cases i.count with
  | none => exact .refl _
  | some count =>
    simp only
    split
    · exact within_serveStep fun _ _ => rfl
    · exact .refl _

theorem dishes_serveWithStep {cook : Cook} :
    (serveWithStep p limit cook depth i f k).frame.dishes = f.dishes := by
  unfold serveWithStep
  cases p.find? i.name with
  | none => rfl
  | some recipe =>
    simp only
    split
    · rfl
    · split <;> rfl

/-- A statement that neither serves with another recipe nor serves dishes changes
what it names, or fails. -/
theorem confined_or_intact_turn (hwith : i.action ≠ .serveWith) (hstop : i.action ≠ .refrigerate)
    (hserve : i.action ≠ .serve) :
    f.Confined i (p.turn limit fuel depth i f k).frame ∨
      f.Intact i.bowl (p.turn limit fuel depth i f k).frame := by
  cases ho : (p.turn limit fuel depth i f k).outcome with
  | goesOn => exact .inl ((careful_step hwith hstop hserve).confined ho)
  | ends e =>
    have hend : i.action.MayEnd e := mayEnd_step ho
    cases e with
    | done => exact absurd hend hstop
    | failed e => exact .inr (intact_step hstop hserve ho)
    | starved =>
      -- a shuffle that starves has not touched its bowl
      have hmix : i.action = .mix := hend.resolve_right hwith
      unfold Program.turn step tryStep at ho ⊢
      simp only [hmix, mixStep, Trial.caught_ok] at ho ⊢
      cases hs : (f.bowl i.bowl).shuffle fuel k.shuffler with
      | none => exact .inl .refl
      | some shuffled => simp [hs, Turn.goOn] at ho

theorem kinds_turn (name : Text) :
    ((p.turn limit fuel depth i f k).frame.ingredients.get? name).map Binding.kind =
      (f.ingredients.get? name).map Binding.kind := by
  have hsame {f' : Frame} (h : f'.ingredients = f.ingredients) :
      (f'.ingredients.get? name).map Binding.kind = (f.ingredients.get? name).map Binding.kind := by
    rw [h]
  by_cases hwith : i.action = .serveWith
  · refine hsame ?_
    unfold Program.turn step tryStep
    simp only [hwith, ingredients_serveWithStep, Trial.caught_ok]
  by_cases hstop : i.action = .refrigerate
  · refine hsame ?_
    unfold Program.turn step tryStep
    simp only [hstop, ingredients_refrigerateStep, Trial.caught_ok]
  by_cases hserve : i.action = .serve
  · refine hsame ?_
    unfold Program.turn step tryStep
    simp only [hserve, Trial.caught_ok]
    split
    · exact ingredients_serveStep fun _ _ => rfl
    · rfl
  rcases confined_or_intact_turn (k := k) hwith hstop hserve with h | h | ⟨-, h⟩
  · exact h.kinds name
  · rw [h]
  · rw [h]

theorem within_dishes_turn : f.dishes.Within (p.turn limit fuel depth i f k).frame.dishes := by
  by_cases hwith : i.action = .serveWith
  · unfold Program.turn step tryStep
    simp only [hwith, dishes_serveWithStep, Trial.caught_ok]
    exact .refl _
  by_cases hstop : i.action = .refrigerate
  · unfold Program.turn step tryStep
    simp only [hstop, Trial.caught_ok]
    exact within_refrigerateStep
  by_cases hserve : i.action = .serve
  · unfold Program.turn step tryStep
    simp only [hserve, Trial.caught_ok]
    split
    · exact within_serveStep fun _ _ => rfl
    · exact .refl _
  by_cases hpour : i.action = .pour
  · unfold Program.turn step tryStep
    simp only [hpour, Trial.caught_ok]
    exact f.dishes.within_insert _ _
  have hnames : ¬ i.action.namesDish := by
    cases ha : i.action <;> simp_all [Action.namesDish]
  rcases confined_or_intact_turn (k := k) hwith hstop hserve with h | h | ⟨-, h⟩
  · exact within_of_get?_eq fun n => h.dishes n fun hdish => absurd hdish hnames
  · rw [h]
    exact .refl _
  · rw [h]
    exact .refl _

/-- Whatever a statement does, and however it ends, what the recipe has at hand
stays at hand. -/
theorem keeps_turn : f.Keeps (p.turn limit fuel depth i f k).frame :=
  ⟨kinds_turn, within_turn, within_dishes_turn⟩

/-- What the recipe has at hand stays at hand, whatever is carried out. -/
theorem keeps_of_reaches {f' : Frame} (h : f.Reaches f') : f.Keeps f' := by
  induction h with
  | refl => exact .refl _
  | jump _ ip ih => exact ⟨ih.kinds, ih.bowls, ih.dishes⟩
  | carryOut _ p limit fuel depth i k ih => exact ih.trans keeps_turn

/-- Every move of a recipe is made in a frame that is come to. -/
theorem reaches_of_mem_moves {m : Move} (hm : m ∈ p.moves limit fuel depth f k) :
    f.Reaches m.frame := by
  induction fuel, f, k using cookFrom_induction p limit depth with
  | starved f k => cases hm
  | finished fuel f k hi =>
    rw [moves_of_none hi] at hm
    cases hm
  | goesOn fuel f k i hi ho ih =>
    rw [moves_of_goesOn hi ho] at hm
    rcases List.mem_cons.1 hm with rfl | hm
    · exact .refl f
    · exact (Frame.Reaches.carryOut (.refl f) p limit fuel depth i k).trans (ih hm)
  | ends fuel f k i e hi ho =>
    rw [moves_of_ends hi ho, List.mem_singleton] at hm
    rw [hm]
    exact .refl f

end

/-! ## The total of the dry ingredients -/

/-- Whether a list goes through the ingredients of a frame, each of them once. -/
structure Frame.Traverses (f : Frame) (order : List (Text × Binding)) : Prop where
  once : (order.map Prod.fst).Nodup
  mem_iff : ∀ name b, (name, b) ∈ order ↔ f.ingredients.get? name = some b

/-- The sum of the numbers of the dry ingredients, whether their values are liquid
or not. -/
def drySum (order : List (Text × Binding)) : Int :=
  ((order.filter (·.2.kind = .dry)).map (·.2.value.number.toInt)).foldr (· + ·) 0

/-- The sum of the dry ingredients in 64 bits, one after the other. -/
def tally (order : List (Text × Binding)) : UInt64 :=
  order.foldl
    (fun total e => if e.2.kind = .dry then total + e.2.value.number.toUInt64 else total) 0

section

variable {f : Frame} {order order' : List (Text × Binding)}

theorem drySum_cons (e : Text × Binding) :
    drySum (e :: order) =
      (if e.2.kind = .dry then e.2.value.number.toInt else 0) + drySum order := by
  unfold drySum
  by_cases he : e.2.kind = .dry <;> simp [he]

theorem drySum_perm (h : order.Perm order') : drySum order = drySum order' :=
  ((h.filter _).map _).foldr_eq 0

theorem IsResidue.add {m n : Int64} {y z : Int} (hm : IsResidue m y) (hn : IsResidue n z) :
    IsResidue (m + n) (y + z) := by
  have hsum := isResidue_add m n
  simp only [IsResidue, UInt64.size] at hm hn hsum ⊢
  omega

/-- Adding numbers up one after the other leaves the residue of their sum. -/
theorem isResidue_foldl {total : Int64} {z : Int} (order : List (Text × Binding))
    (h : IsResidue total z) :
    IsResidue (order.foldl (fun total e =>
      if e.2.kind = .dry then total + e.2.value.number else total) total) (z + drySum order) := by
  induction order generalizing total z with
  | nil => simpa [drySum] using h
  | cons e order ih =>
    rw [List.foldl_cons, drySum_cons, ← Int.add_assoc]
    by_cases he : e.2.kind = .dry
    · simp only [if_pos he]
      exact ih (h.add rfl)
    · simp only [if_neg he, Int.add_zero]
      exact ih h

theorem isResidue_dryTotal (f : Frame) : IsResidue f.dryTotal (drySum f.ingredients.entries) := by
  have h := isResidue_foldl f.ingredients.entries (show IsResidue 0 0 from rfl)
  rwa [Int.zero_add] at h

/-- A sum of unsigned numbers reads as that of the signed ones. -/
theorem toInt64_foldl (total : UInt64) :
    (order.foldl (fun total e =>
        if e.2.kind = .dry then total + e.2.value.number.toUInt64 else total) total).toInt64 =
      order.foldl (fun total e => if e.2.kind = .dry then total + e.2.value.number else total)
        total.toInt64 := by
  induction order generalizing total with
  | nil => rfl
  | cons e order ih =>
    rw [List.foldl_cons, List.foldl_cons, ih]
    split
    · simp only [UInt64.toInt64_add, Int64.toInt64_toUInt64]
    · rfl

theorem isResidue_tally (order : List (Text × Binding)) :
    IsResidue (tally order).toInt64 (drySum order) := by
  have h := isResidue_foldl order (show IsResidue 0 0 from rfl)
  rw [tally, toInt64_foldl]
  rwa [Int.zero_add] at h

/-- The ways to go through the ingredients differ in their order only. -/
theorem Frame.Traverses.perm (h : f.Traverses order) : order.Perm f.ingredients.entries := by
  have hlabels : f.ingredients.entries.Nodup :=
    f.ingredients.ascending.imp fun hlt heq => Shelf.ne_of_lt hlt (congrArg Prod.fst heq)
  refine (List.perm_ext_iff_of_nodup (.of_map _ h.once) hlabels).2 fun e => ?_
  rw [← Shelf.get?_eq_some_iff]
  exact h.mem_iff e.1 e.2

/-- The dry ingredients have the same total in whatever order they are gone
through. -/
theorem toInt64_tally (h : f.Traverses order) : (tally order).toInt64 = f.dryTotal :=
  (isResidue_tally order).unique (drySum_perm h.perm ▸ isResidue_dryTotal f)

end

theorem turn_addDry {p : Program} {limit depth : UInt32} {fuel : Nat} {i : Instruction} {f : Frame}
    {k : Kitchen} (ha : i.action = .addDry) :
    p.turn limit fuel depth i f k =
      .goOn (f.setBowl i.bowl ((f.bowl i.bowl).push { number := f.dryTotal })).advance k := by
  unfold Program.turn step tryStep
  simp only [ha]
  rfl

/-! ## Recipes at every point -/

/-- A recipe that starts with its ingredients as they are declared, and with any
bowls, has these ingredients at every point, each of the kind of its last
declaration.  The bowls and dishes of a point are there at every later one.  At
every point adding the dry ingredients puts a value that is not liquid on top of the
bowl, namely the residue of the sum of what the dry ingredients hold then, in
whatever order they are gone through. -/
theorem provisions_hold (r : Recipe) (bowls : Shelf UInt32 Stack) {f f' : Frame}
    (hf : Frame.Reaches { Frame.ofRecipe r with bowls } f) (hf' : f.Reaches f') :
    (∀ name, (Frame.ofRecipe r).ingredients.get? name =
      (r.declared? name).map Ingredient.binding) ∧
    (∀ name, (f.ingredients.get? name).map Binding.kind =
      (r.declared? name).map Ingredient.kind) ∧
    (f.bowls.Within f'.bowls ∧ f.dishes.Within f'.dishes) ∧
    ∀ order, f.Traverses order → ∀ (p : Program) limit fuel depth i k, i.action = .addDry →
      ∃ n : Int64, p.turn limit fuel depth i f k =
          .goOn (f.setBowl i.bowl
            ((f.bowl i.bowl).push { number := n, liquid := false })).advance k ∧
        n = (tally order).toInt64 ∧ IsResidue n (drySum order) := by
  have hdeclared (name : Text) : (Frame.ofRecipe r).ingredients.get? name =
      (r.declared? name).map Ingredient.binding :=
    get?_declare_eq r.ingredients name
  have hkeeps := keeps_of_reaches hf'
  refine ⟨hdeclared, fun name => ?_, ⟨hkeeps.bowls, hkeeps.dishes⟩, ?_⟩
  · calc (f.ingredients.get? name).map Binding.kind
        = ((Frame.ofRecipe r).ingredients.get? name).map Binding.kind :=
          (keeps_of_reaches hf).kinds name
      _ = (r.declared? name).map Ingredient.kind := by
          rw [hdeclared, Option.map_map]
          rfl
  · intro order horder p limit fuel depth i k ha
    have htotal := toInt64_tally horder
    exact ⟨f.dryTotal, turn_addDry ha, htotal.symm, htotal ▸ isResidue_tally order⟩

/-- Flour that is declared twice, dry at last, and then made liquid: it is still
added up with the salt, past the largest number there is.  Asking for yeast, which
there is none of, leaves an empty bowl behind. -/
theorem provisions_hold_bread :
    let r : Recipe :=
      { name := "Bread"
        ingredients := [{ name := "flour", value := some 3, kind := .liquid },
          { name := "salt", value := some 2, kind := .dry },
          { name := "flour", value := some 9223372036854775807, kind := .dry }] }
    let p : Program := {}
    let k := Kitchen.prepare .empty 0
    let f := (p.turn 0 0 0 { action := .liquefy, ingredient := "flour" } (.ofRecipe r) k).frame
    let f' := (p.turn 0 0 0 { action := .put, ingredient := "yeast", bowl := 7 } f k).frame
    let order : List (Text × Binding) :=
      [("salt", { value := { number := 2 }, kind := .dry }),
        ("flour", { value := { number := 9223372036854775807, liquid := true }, kind := .dry })]
    (f.ingredients.get? "flour").map Binding.kind = some .dry ∧
      (f.bowls.Within f'.bowls ∧ f'.bowls.entries = [(7, .empty)]) ∧ f.Traverses order ∧
      ∃ n : Int64, n.toInt = -9223372036854775807 ∧
        p.turn 0 0 0 { action := .addDry } f k =
          .goOn (f.setBowl 1 ((f.bowl 1).push { number := n, liquid := false })).advance k := by
  intro r p k f f' order
  have hf : Frame.Reaches { Frame.ofRecipe r with bowls := .empty } f :=
    Frame.Reaches.carryOut (.refl _) p 0 0 0 { action := .liquefy, ingredient := "flour" } k
  have hf' : f.Reaches f' :=
    Frame.Reaches.carryOut (.refl _) p 0 0 0 { action := .put, ingredient := "yeast", bowl := 7 } k
  have hentries : f.ingredients.entries = order.reverse := by decide
  have horder : f.Traverses order := by
    refine ⟨by decide, fun name b => ?_⟩
    rw [Shelf.get?_eq_some_iff, hentries, List.mem_reverse]
  obtain ⟨-, hkinds, hkept, hdry⟩ := provisions_hold r .empty hf hf'
  obtain ⟨n, hturn, hn, -⟩ := hdry order horder p 0 0 0 { action := .addDry } k rfl
  refine ⟨hkinds "flour", ⟨hkept.1, by decide⟩, horder, n, ?_, hturn⟩
  rw [hn]
  decide

end Cookbook
