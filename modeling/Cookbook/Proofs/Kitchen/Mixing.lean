import Cookbook.Proofs.Cooking.Fuel

/-!
# Cookbook.Proofs.Kitchen.Mixing

Mixing loses nothing (`mix_rearranges`).

Which places are exchanged does not depend on what stands there, so shuffling is
drawing exchanges (`Twister.exchanges`) and carrying them out (`Twister.shuffle_eq`).
However they are drawn, one at a time or in pairs, each place from the second on has
its turn once and is exchanged with itself or a place in front of it
(`Twister.InTurn`).  So no exchange reaches beyond the items, and each of them leaves
the items in another order.
-/

namespace Cookbook

namespace Twister

variable {α : Type} {n fuel count i j m : Nat} {g g' : Twister} {items : Array α}
  {ps qs : List (Nat × Nat)}

/-! ## Drawing exchanges -/

/-- The exchanges of `count` places from `i` on, a number drawn for each. -/
def drawEach (fuel : Nat) : Nat → Nat → Twister → Option (List (Nat × Nat) × Twister)
  | 0, _, g => some ([], g)
  | count + 1, i, g =>
    match below (i + 1) fuel g with
    | none => none
    | some (j, g') => (drawEach fuel count (i + 1) g').map (Prod.map ([(i, j)] ++ ·) id)

/-- The exchanges of `count` pairs of places from `i` on, a number drawn for each
pair. -/
def drawPairs (fuel : Nat) : Nat → Nat → Twister → Option (List (Nat × Nat) × Twister)
  | 0, _, g => some ([], g)
  | count + 1, i, g =>
    match below ((i + 1) * (i + 2)) fuel g with
    | none => none
    | some (j, g') =>
      (drawPairs fuel count (i + 2) g').map
        (Prod.map ([(i, j / (i + 2)), (i + 1, j % (i + 2))] ++ ·) id)

/-- The exchanges that shuffling `n` items comes to, and the generator behind
them. -/
def exchanges (fuel n : Nat) (g : Twister) : Option (List (Nat × Nat) × Twister) :=
  if n < 2 then some ([], g)
  else if n * n < UInt32.size then
    if n % 2 = 0 then
      match drawEach fuel 1 1 g with
      | none => none
      | some (first, g') => (drawPairs fuel ((n - 2) / 2) 2 g').map (Prod.map (first ++ ·) id)
    else drawPairs fuel ((n - 1) / 2) 1 g
  else drawEach fuel (n - 1) 1 g

/-- Exchanges the items at two places; there has to be an item at both. -/
def exchange? (items : Array α) (e : Nat × Nat) : Option (Array α) :=
  if h : e.1 < items.size ∧ e.2 < items.size then some (items.swap e.1 e.2 h.1 h.2) else none

/-- Carries out exchanges one after the other. -/
def carryOut? (items : Array α) (ps : List (Nat × Nat)) : Option (Array α) :=
  ps.foldlM exchange? items

/-! ## Which places are drawn -/

/-- A word is below `2 ^ 32`, so the upper half of its product with a number is less
than that number. -/
theorem wordBelow_lt (hn : 0 < n) (h : wordBelow n fuel g = some (j, g')) : j < n := by
  induction fuel generalizing g with
  | zero => cases h
  | succ fuel ih =>
    simp only [wordBelow] at h
    split at h
    · exact ih h
    · obtain ⟨rfl, -⟩ := Prod.mk.inj (Option.some.inj h)
      have hword : g.next.1.toNat * n < UInt32.size * n :=
        Nat.mul_lt_mul_of_pos_right g.next.1.toNat_lt hn
      exact Nat.div_lt_of_lt_mul hword

theorem wideBelow_lt (h : wideBelow n fuel g = some (j, g')) : j < n := by
  induction fuel generalizing g with
  | zero => cases h
  | succ fuel ih =>
    simp only [wideBelow] at h
    cases hupper : wordBelow ((n - 1) / UInt32.size + 1) fuel g with
    | none => simp [hupper] at h
    | some upper =>
      simp only [hupper] at h
      split at h
      · next hlt =>
        obtain ⟨rfl, -⟩ := Prod.mk.inj (Option.some.inj h)
        exact hlt
      · exact ih h

/-- A number that is drawn below another one is less than it. -/
theorem below_lt (hn : 0 < n) (h : below n fuel g = some (j, g')) : j < n := by
  unfold below at h
  split at h
  · exact wordBelow_lt hn h
  · exact wideBelow_lt h

/-- Whether the places of some exchanges are `count` ones from `i` on in turn, each
exchanged with one that is not behind it. -/
structure InTurn (i count : Nat) (ps : List (Nat × Nat)) : Prop where
  turns : ps.map Prod.fst = List.range' i count
  earlier : ∀ e ∈ ps, e.2 ≤ e.1

namespace InTurn

theorem nil : InTurn i 0 [] := ⟨rfl, by simp⟩

theorem append (hp : InTurn i m ps) (hq : InTurn (i + m) n qs) : InTurn i (m + n) (ps ++ qs) where
  turns := by rw [List.map_append, hp.turns, hq.turns, List.range'_append_1]
  earlier := List.forall_mem_append.2 ⟨hp.earlier, hq.earlier⟩

theorem single (h : j ≤ i) : InTurn i 1 [(i, j)] := ⟨rfl, by simpa using h⟩

/-- Exchanges of all places but the first stay within the items. -/
theorem within (h : InTurn 1 (n - 1) ps) : ∀ e ∈ ps, e.2 ≤ e.1 ∧ e.1 < n := by
  intro e he
  have hturn : e.1 ∈ List.range' 1 (n - 1) := h.turns ▸ List.mem_map_of_mem he
  rw [List.mem_range'_1] at hturn
  exact ⟨h.earlier e he, by omega⟩

end InTurn

theorem inTurn_drawEach (h : drawEach fuel count i g = some (ps, g')) : InTurn i count ps := by
  induction count generalizing i g g' ps with
  | zero =>
    obtain ⟨rfl, -⟩ := Prod.mk.inj (Option.some.inj h)
    exact .nil
  | succ count ih =>
    rw [drawEach] at h
    cases hdrawn : below (i + 1) fuel g with
    | none => simp [hdrawn] at h
    | some drawn =>
      simp only [hdrawn] at h
      obtain ⟨⟨rest, g''⟩, hrest, hps⟩ := Option.map_eq_some_iff.1 h
      obtain ⟨rfl, -⟩ := Prod.mk.inj hps
      have hlt : drawn.1 < i + 1 := below_lt (Nat.succ_pos i) hdrawn
      rw [Nat.add_comm count 1]
      exact (InTurn.single (by omega)).append (ih hrest)

/-- A number below the product of two successive numbers falls into one below each
of them. -/
theorem inTurn_drawPairs (h : drawPairs fuel count i g = some (ps, g')) :
    InTurn i (2 * count) ps := by
  induction count generalizing i g g' ps with
  | zero =>
    obtain ⟨rfl, -⟩ := Prod.mk.inj (Option.some.inj h)
    exact .nil
  | succ count ih =>
    rw [drawPairs] at h
    cases hdrawn : below ((i + 1) * (i + 2)) fuel g with
    | none => simp [hdrawn] at h
    | some drawn =>
      simp only [hdrawn] at h
      obtain ⟨⟨rest, g''⟩, hrest, hps⟩ := Option.map_eq_some_iff.1 h
      obtain ⟨rfl, -⟩ := Prod.mk.inj hps
      have hlt : drawn.1 < (i + 1) * (i + 2) := below_lt (Nat.mul_pos (by omega) (by omega)) hdrawn
      have hfirst : drawn.1 / (i + 2) < i + 1 := Nat.div_lt_of_lt_mul (Nat.mul_comm .. ▸ hlt)
      have hsecond : drawn.1 % (i + 2) < i + 2 := Nat.mod_lt _ (by omega)
      have hpair : InTurn i 2 [(i, drawn.1 / (i + 2)), (i + 1, drawn.1 % (i + 2))] :=
        (InTurn.single (by omega)).append (InTurn.single (by omega))
      rw [Nat.mul_succ, Nat.add_comm]
      exact hpair.append (ih hrest)

/-- Every place but the first has its turn once, however many items there are. -/
theorem inTurn_exchanges (h : exchanges fuel n g = some (ps, g')) : InTurn 1 (n - 1) ps := by
  unfold exchanges at h
  by_cases hfew : n < 2
  · rw [if_pos hfew] at h
    obtain ⟨rfl, -⟩ := Prod.mk.inj (Option.some.inj h)
    rw [show n - 1 = 0 by omega]
    exact .nil
  rw [if_neg hfew] at h
  by_cases hpaired : n * n < UInt32.size
  · rw [if_pos hpaired] at h
    by_cases heven : n % 2 = 0
    · rw [if_pos heven] at h
      cases hfirst : drawEach fuel 1 1 g with
      | none => simp [hfirst] at h
      | some first =>
        simp only [hfirst] at h
        obtain ⟨⟨rest, g''⟩, hrest, hps⟩ := Option.map_eq_some_iff.1 h
        obtain ⟨rfl, -⟩ := Prod.mk.inj hps
        rw [show n - 1 = 1 + 2 * ((n - 2) / 2) by omega]
        exact (inTurn_drawEach hfirst).append (inTurn_drawPairs hrest)
    · rw [if_neg heven] at h
      rw [show n - 1 = 2 * ((n - 1) / 2) by omega]
      exact inTurn_drawPairs h
  · rw [if_neg hpaired] at h
    exact inTurn_drawEach h

/-! ## Shuffling carries exchanges out -/

/-- The items behind some exchanges. -/
def exchanged (items : Array α) (ps : List (Nat × Nat)) : Array α :=
  ps.foldl (fun items e => items.swapIfInBounds e.1 e.2) items

theorem exchanged_append (items : Array α) (ps qs : List (Nat × Nat)) :
    exchanged items (ps ++ qs) = exchanged (exchanged items ps) qs :=
  List.foldl_append

theorem exchangeEach_eq (fuel count i : Nat) (items : Array α) (g : Twister) :
    exchangeEach fuel count i items g =
      (drawEach fuel count i g).map (Prod.map (exchanged items) id) := by
  induction count generalizing i items g with
  | zero => rfl
  | succ count ih =>
    rw [exchangeEach, drawEach]
    cases below (i + 1) fuel g with
    | none => rfl
    | some drawn =>
      simp only [ih, Option.map_map]
      rfl

theorem exchangePairs_eq (fuel count i : Nat) (items : Array α) (g : Twister) :
    exchangePairs fuel count i items g =
      (drawPairs fuel count i g).map (Prod.map (exchanged items) id) := by
  induction count generalizing i items g with
  | zero => rfl
  | succ count ih =>
    rw [exchangePairs, drawPairs]
    cases below ((i + 1) * (i + 2)) fuel g with
    | none => rfl
    | some drawn =>
      simp only [ih, Option.map_map]
      rfl

theorem shuffle_eq (fuel : Nat) (items : Array α) (g : Twister) :
    shuffle fuel items g =
      (exchanges fuel items.size g).map (Prod.map (exchanged items) id) := by
  unfold shuffle exchanges
  by_cases hfew : items.size < 2
  · simp only [hfew, if_true]
    rfl
  simp only [hfew, if_false]
  by_cases hpaired : items.size * items.size < UInt32.size
  · simp only [hpaired, if_true]
    by_cases heven : items.size % 2 = 0
    · simp only [heven, if_true, exchangeEach_eq]
      cases drawEach fuel 1 1 g with
      | none => rfl
      | some first =>
        simp only [Option.map_some, Prod.map, id, exchangePairs_eq, Option.map_map,
          Function.comp_def, exchanged_append]
        rfl
    · simp only [heven, if_false, exchangePairs_eq]
  · simp only [hpaired, if_false, exchangeEach_eq]

/-- Exchanges between places where there are items can be carried out, and leave the
items in another order. -/
theorem carryOut?_eq (h : ∀ e ∈ ps, e.1 < items.size ∧ e.2 < items.size) :
    carryOut? items ps = some (exchanged items ps) ∧ (exchanged items ps).Perm items := by
  induction ps generalizing items with
  | nil => exact ⟨rfl, .refl items⟩
  | cons e ps ih =>
    rw [List.forall_mem_cons] at h
    obtain ⟨⟨hi, hj⟩, hrest⟩ := h
    have hswap : items.swapIfInBounds e.1 e.2 = items.swap e.1 e.2 hi hj := by
      rw [Array.swapIfInBounds_def, dif_pos hi, dif_pos hj]
    have hexchange : exchange? items e = some (items.swapIfInBounds e.1 e.2) := by
      rw [exchange?, dif_pos ⟨hi, hj⟩, hswap]
    have hplaces : ∀ e' ∈ ps, e'.1 < (items.swapIfInBounds e.1 e.2).size ∧
        e'.2 < (items.swapIfInBounds e.1 e.2).size := by
      simpa using hrest
    obtain ⟨hcarried, hperm⟩ := ih hplaces
    refine ⟨?_, hperm.trans (hswap ▸ Array.swap_perm hi hj)⟩
    rw [carryOut?, List.foldlM_cons, hexchange]
    exact hcarried

end Twister

/-! ## Mixing a bowl -/

section

variable {fuel : Nat} {g g' : Twister} {ps : List (Nat × Nat)} {s : Stack} {f : Frame}
  {n : UInt32}

theorem Stack.shuffle_of_none (h : g.exchanges fuel s.size = none) : s.shuffle fuel g = none := by
  have hsize : s.contents.toArray.size = s.size := by simp [contents, size]
  rw [Stack.shuffle, Twister.shuffle_eq, hsize, h]
  rfl

/-- What is drawn for a stack is carried out on it. -/
theorem Stack.shuffle_of_some (h : g.exchanges fuel s.size = some (ps, g')) :
    ∃ s' : Stack, s.shuffle fuel g = some (s', g') ∧
      Twister.carryOut? s.contents.toArray ps = some s'.contents.toArray ∧
      s'.contents.Perm s.contents := by
  have hsize : s.contents.toArray.size = s.size := by simp [contents, size]
  have hwithin : ∀ e ∈ ps, e.1 < s.contents.toArray.size ∧ e.2 < s.contents.toArray.size := by
    intro e he
    obtain ⟨hearlier, hlt⟩ := (Twister.inTurn_exchanges h).within e he
    rw [hsize]
    exact ⟨hlt, Nat.lt_of_le_of_lt hearlier hlt⟩
  obtain ⟨hcarried, hperm⟩ := Twister.carryOut?_eq hwithin
  refine ⟨.ofContents (Twister.exchanged s.contents.toArray ps).toList, ?_, ?_, ?_⟩
  · rw [Stack.shuffle, Twister.shuffle_eq, hsize, h]
    rfl
  · rw [hcarried, contents_ofContents, Array.toArray_toList]
  · rw [contents_ofContents]
    exact hperm.toList

/-- Whether a frame differs from another one only in that the values of a bowl, each
with its number and whether it is liquid, are in another order, and that it has come
to the next statement. -/
structure Frame.Rearranged (f : Frame) (n : UInt32) (f' : Frame) : Prop where
  recipe : f'.recipe = f.recipe
  bowl : f'.bowls.get? n = some (f'.bowl n)
  values : (f'.bowl n).contents.Perm (f.bowl n).contents
  bowls : ∀ m, m ≠ n → f'.bowls.get? m = f.bowls.get? m
  dishes : f'.dishes = f.dishes
  ingredients : f'.ingredients = f.ingredients
  next : f'.ip = f.ip + 1

theorem rearranged_setBowl (h : s.contents.Perm (f.bowl n).contents) :
    f.Rearranged n (f.setBowl n s).advance where
  recipe := rfl
  bowl := (f.bowls.get?_insert_self n s).trans (congrArg some (f.bowl_setBowl_self n s).symm)
  values := (f.bowl_setBowl_self n s).symm ▸ h
  bowls _ hm := f.bowls.get?_insert_of_ne _ hm
  dishes := rfl
  ingredients := rfl
  next := rfl

end

/-- Mixing a bowl of any size, with a generator in any state, draws exchanges.  If
this comes to an end, every place of the bowl but the lowest has its turn once and is
exchanged with itself or a lower one, all of them within the bowl.  Carrying this out
puts the values of the bowl in another order, and nothing else changes but the
generator.  If it does not come to an end, nothing changes at all. -/
theorem mix_rearranges {i : Instruction} (ha : i.action = .mix) (p : Program)
    (limit depth : UInt32) (fuel : Nat) (f : Frame) (k : Kitchen) :
    let turn := p.turn limit fuel depth i f k
    let size := (f.bowl i.bowl).size
    (k.shuffler.exchanges fuel size = none →
      turn = { outcome := .ends .starved, frame := f, kitchen := k }) ∧
    ∀ ps shuffler, k.shuffler.exchanges fuel size = some (ps, shuffler) →
      turn.outcome = .goesOn ∧
      ps.map Prod.fst = List.range' 1 (size - 1) ∧
      (∀ e ∈ ps, e.2 ≤ e.1 ∧ e.1 < size) ∧
      Twister.carryOut? (f.bowl i.bowl).contents.toArray ps =
        some (turn.frame.bowl i.bowl).contents.toArray ∧
      f.Rearranged i.bowl turn.frame ∧
      turn.kitchen = { k with shuffler } := by
  intro turn size
  have hturn : turn = mixStep fuel i f k := by
    simp only [turn, Program.turn, step, tryStep, ha, Trial.caught_ok]
  constructor
  · intro hdrawn
    simp only [hturn, mixStep, Stack.shuffle_of_none hdrawn]
  · intro ps shuffler hdrawn
    obtain ⟨s, hshuffled, hcarried, hperm⟩ := Stack.shuffle_of_some hdrawn
    have hgoes : turn = .goOn (f.setBowl i.bowl s).advance { k with shuffler } := by
      simp only [hturn, mixStep, hshuffled]
    have hturns := Twister.inTurn_exchanges hdrawn
    have hbowl : turn.frame.bowl i.bowl = s := by
      rw [hgoes]
      exact f.bowl_setBowl_self i.bowl s
    refine ⟨?_, hturns.turns, hturns.within, hbowl ▸ hcarried, ?_, ?_⟩
    · rw [hgoes]
      rfl
    · rw [hgoes]
      exact rearranged_setBowl hperm
    · rw [hgoes]
      rfl

/-- Five values, two of which differ only in that one is liquid: a number is drawn for
each two of the four places above the lowest, and the lowest value ends up second. -/
theorem mix_rearranges_salad :
    let values : List Value :=
      [{ number := 1 }, { number := 1, liquid := true }, { number := 3 }, { number := 4 },
        { number := 5 }]
    let mixed : List Value :=
      [{ number := 5 }, { number := 1 }, { number := 3 }, { number := 4 },
        { number := 1, liquid := true }]
    let mixes : Instruction := { action := .mix, bowl := 2 }
    let salad : Recipe := { name := "Salad", instructions := [mixes] }
    let f := (Frame.ofRecipe salad).setBowl 2 (.ofContents values)
    let k := Kitchen.prepare .empty 42
    let turn := (Program.ofRecipes "Salad" [salad]).turn 1000 1 1 mixes f k
    turn.outcome = .goesOn ∧ f.Rearranged 2 turn.frame ∧ (turn.frame.bowl 2).contents = mixed := by
  intro values mixed mixes salad f k turn
  have hdrawn : (k.shuffler.exchanges 1 (f.bowl 2).size).map Prod.fst =
      some [(1, 0), (2, 2), (3, 3), (4, 0)] := by decide +kernel
  have hmixed : Twister.carryOut? (f.bowl 2).contents.toArray [(1, 0), (2, 2), (3, 3), (4, 0)] =
      some mixed.toArray := by decide +kernel
  obtain ⟨⟨ps, shuffler⟩, hps, rfl⟩ := Option.map_eq_some_iff.1 hdrawn
  obtain ⟨hgoes, -, -, hcarried, hrearranged, -⟩ :=
    (mix_rearranges (i := mixes) rfl _ 1000 1 1 f k).2 _ _ hps
  exact ⟨hgoes, hrearranged, List.toArray_inj (Option.some.inj (hcarried.symm.trans hmixed))⟩

end Cookbook
