import Cookbook.Proofs.Cooking.Characters

/-!
# Cookbook.Proofs.Cooking.ServingDishes

Serving dishes.  What a value is served as is its wording, a string
(`Value.serving?_eq`): the character with its number, or the number.  A dish whose
values all have one is emptied, and everything that was in it is written behind a
line feed, unless it is the first dish (`dishesFrom_of_servable`).  A value
without a wording is where serving ends: what is above it is written and gone, the
value is gone, and what is below it stays (`dishesFrom_of_refused`).
-/

namespace Cookbook

open Text

/-! ## Wordings -/

theorem Decimal.ofNat_eq_repr (n : Nat) : Decimal.ofNat n = ofString n.repr := by
  have hdigit : ∀ d < 10, [Decimal.digit d] = String.utf8EncodeChar d.digitChar := by decide
  rw [Nat.repr_eq_ofList_toDigits, ofString_ofList]
  induction n using Nat.strongRecOn with
  | ind n ih =>
    rw [Decimal.ofNat]
    split
    · next h => simp [Nat.toDigits_of_lt_base h, hdigit n h]
    · next h =>
      have hle : 10 ≤ n := by omega
      rw [Nat.toDigits_of_base_le (by decide) hle, List.flatMap_append, ← ih (n / 10) (by omega)]
      simp [hdigit (n % 10) (by omega)]

theorem Decimal.ofInt_eq_toString (n : Int) : Decimal.ofInt n = ofString (toString n) := by
  cases n with
  | ofNat n => exact Decimal.ofNat_eq_repr n
  | negSucc n =>
    have happend : toString (Int.negSucc n) = "-" ++ (n + 1).repr := rfl
    rw [happend, Decimal.ofInt, Decimal.ofNat_eq_repr]
    simp [ofString, String.toUTF8]

namespace Value

/-- Whether a value can be served: a liquid one must stand for a character. -/
def Servable (v : Value) : Prop := v.liquid → CodePoint.IsScalar v.number.toInt

instance (v : Value) : Decidable v.Servable :=
  inferInstanceAs (Decidable (v.liquid → CodePoint.IsScalar v.number.toInt))

/-- The wording of a value: the character with its number if it is liquid, the
number otherwise. -/
def wording (v : Value) : String :=
  if v.liquid then (Char.ofNat v.number.toInt.toNat).toString else toString v.number.toInt

/-- A liquid value that can be served is one that is served as a character. -/
theorem Servable.eq_ofChar {v : Value} (h : v.Servable) (hliquid : v.liquid = true) :
    v = ofChar (Char.ofNat v.number.toInt.toNat) := by
  obtain ⟨number, liquid⟩ := v
  obtain rfl : liquid = true := hliquid
  exact congrArg (Value.mk · true) (CodePoint.ofChar_ofNat (h rfl)).symm

theorem serving?_eq (v : Value) :
    v.serving? = if v.Servable then some (ofString v.wording) else none := by
  by_cases hliquid : v.liquid = true
  · by_cases h : v.Servable
    · have hchar : v.serving? = some (String.utf8EncodeChar (Char.ofNat v.number.toInt.toNat)) :=
        (congrArg serving? (h.eq_ofChar hliquid)).trans (serving?_ofChar _)
      have hwording : v.wording = String.ofList [Char.ofNat v.number.toInt.toNat] := if_pos hliquid
      rw [if_pos h, hchar, hwording, ofString_ofList, List.flatMap_singleton]
    · have hscalar : ¬ CodePoint.IsScalar v.number.toInt := fun hs => h fun _ => hs
      rw [if_neg h, serving?, if_pos hliquid, CodePoint.encode?, if_neg hscalar]
  · have h : v.Servable := fun hl => absurd hl hliquid
    rw [if_pos h, serving?, if_neg hliquid, wording, if_neg hliquid, Decimal.ofInt64,
      Decimal.ofInt_eq_toString]

/-- The wordings of some values, one behind the other. -/
def wordings (vs : List Value) : Text := vs.flatMap fun v => ofString v.wording

end Value

/-! ## Dishes -/

namespace Served

variable {dishes dishes' : Shelf UInt32 Stack} {written : Array UInt8} {n count : Nat}
  {v : Value} {above below vs : List Value}

/-- The values of a dish from top to bottom; a dish that is not there has none. -/
def items (dishes : Shelf UInt32 Stack) (n : Nat) : List Value :=
  ((dishes.get? (UInt32.ofNat n)).getD .empty).items

/-- Whether all values of the first `n` dishes can be served. -/
def AllServable (dishes : Shelf UInt32 Stack) (n : Nat) : Prop :=
  ∀ m ∈ List.range' 1 n, ∀ v ∈ items dishes m, v.Servable

instance : Decidable (AllServable dishes n) :=
  inferInstanceAs (Decidable (∀ m ∈ List.range' 1 n, ∀ v ∈ items dishes m, v.Servable))

/-- What the first `n` dishes are served as. -/
def lines (dishes : Shelf UInt32 Stack) (n : Nat) : List Text :=
  (List.range' 1 n).map fun m => Value.wordings (items dishes m)

/-- Whether the first `n` dishes are emptied, as far as they are there, and all
others are as they were. -/
def Emptied (n : Nat) (dishes dishes' : Shelf UInt32 Stack) : Prop :=
  ∀ m, dishes'.get? m =
    if 1 ≤ m.toNat ∧ m.toNat ≤ n then (dishes.get? m).map fun _ => .empty else dishes.get? m

theorem allServable_succ :
    AllServable dishes (n + 1) ↔
      AllServable dishes n ∧ ∀ v ∈ items dishes (n + 1), v.Servable := by
  simp [AllServable, List.range'_1_concat, Nat.add_comm 1 n, or_imp, forall_and]

theorem Emptied.items (h : Emptied n dishes dishes') (hn : n + 1 < UInt32.size) :
    items dishes' (n + 1) = items dishes (n + 1) := by
  have hnat : (UInt32.ofNat (n + 1)).toNat = n + 1 := UInt32.toNat_ofNat_of_lt hn
  rw [Served.items, h, if_neg (by omega)]
  rfl

theorem Emptied.succ {dishes₁ : Shelf UInt32 Stack} (h : Emptied n dishes dishes₁)
    (hn : n + 1 < UInt32.size)
    (hnext : ∀ m, dishes'.get? m =
      if m = UInt32.ofNat (n + 1) then (dishes₁.get? m).map fun _ => .empty
      else dishes₁.get? m) : Emptied (n + 1) dishes dishes' := by
  have hnat : (UInt32.ofNat (n + 1)).toNat = n + 1 := UInt32.toNat_ofNat_of_lt hn
  intro m
  have hm : m = UInt32.ofNat (n + 1) ↔ m.toNat = n + 1 := by rw [← UInt32.toNat_inj, hnat]
  rw [hnext, h]
  grind

/-! ### The values of a dish -/

theorem values_append_of_servable (h : ∀ v ∈ above, v.Servable) (written : Array UInt8) :
    values written (above ++ below) = values (written ++ Value.wordings above) below := by
  induction above generalizing written with
  | nil => simp [Value.wordings]
  | cons v above ih =>
    obtain ⟨hv, habove⟩ := List.forall_mem_cons.1 h
    have happend : written ++ ofString v.wording ++ Value.wordings above =
        written ++ Value.wordings (v :: above) := Array.toList_inj.1 (by simp [Value.wordings])
    rw [List.cons_append, values, Value.serving?_eq, if_pos hv]
    simp only [ih habove, happend]

theorem values_of_servable (h : ∀ v ∈ vs, v.Servable) (written : Array UInt8) :
    values written vs = (written ++ Value.wordings vs, [], none) := by
  have hvalues : values written (vs ++ []) = values (written ++ Value.wordings vs) [] :=
    values_append_of_servable h written
  rwa [List.append_nil] at hvalues

theorem values_of_refused (h : ∀ v ∈ above, v.Servable) (hv : ¬ v.Servable)
    (written : Array UInt8) :
    values written (above ++ v :: below) =
      (written ++ Value.wordings above, below, some v.number) := by
  rw [values_append_of_servable h, values, Value.serving?_eq, if_neg hv]

/-! ### One dish after the other -/

theorem intercalate_concat (ls : List Text) (t : Text) :
    [lineFeed].intercalate (ls ++ [t]) =
      [lineFeed].intercalate ls ++ (if ls = [] then [] else [lineFeed]) ++ t := by
  induction ls with
  | nil => simp
  | cons l ls ih =>
    cases ls with
    | nil => simp
    | cons l' ls => simpa [List.intercalate_cons_cons] using ih

/-- Every dish but the first is written behind a line feed. -/
theorem append_intercalate (written : Array UInt8) (dishes : Shelf UInt32 Stack) (n : Nat)
    (t : Text) :
    (if n + 1 > 1 then (written ++ [lineFeed].intercalate (lines dishes n)).push lineFeed
      else written ++ [lineFeed].intercalate (lines dishes n)) ++ t =
      written ++ [lineFeed].intercalate (lines dishes n ++ [t]) := by
  rw [intercalate_concat]
  cases n with
  | zero => simp [lines]
  | succ n =>
    have hne : lines dishes (n + 1) ≠ [] := by simp [lines]
    rw [if_pos (by omega), if_neg hne]
    exact Array.toList_inj.1 (by simp)

theorem lines_succ (dishes : Shelf UInt32 Stack) (n : Nat) :
    lines dishes (n + 1) = lines dishes n ++ [Value.wordings (items dishes (n + 1))] := by
  simp [lines, List.range'_1_concat, Nat.add_comm 1 n]

/-- A dish whose values can all be served is emptied. -/
theorem dishesFrom_succ_of_servable (h : ∀ v ∈ items dishes n, v.Servable)
    (written : Array UInt8) :
    ∃ dishes' : Shelf UInt32 Stack,
      (∀ m, dishes'.get? m =
        if m = UInt32.ofNat n then (dishes.get? m).map fun _ => .empty else dishes.get? m) ∧
      ∀ count, dishesFrom dishes written (count + 1) n =
        dishesFrom dishes' ((if n > 1 then written.push lineFeed else written) ++
          Value.wordings (items dishes n)) count (n + 1) := by
  cases hdish : dishes.get? (UInt32.ofNat n) with
  | none =>
    have hitems : items dishes n = [] := by simp [items, hdish, Stack.empty]
    refine ⟨dishes, fun m => ?_, fun count => ?_⟩
    · split
      · next hm => simp [hm, hdish]
      · rfl
    · simp [dishesFrom, hdish, hitems, Value.wordings]
  | some dish =>
    have hitems : items dishes n = dish.items := by simp [items, hdish]
    refine ⟨dishes.insert (UInt32.ofNat n) .empty, fun m => ?_, fun count => ?_⟩
    · rw [Shelf.get?_insert]
      split
      · next hm => simp [hm, hdish]
      · rfl
    · rw [hitems] at h ⊢
      rw [dishesFrom, hdish]
      simp only [values_of_servable h]
      rfl

/-- The first dishes are emptied as long as all values can be served. -/
theorem dishesFrom_of_servable (hn : n < UInt32.size) (h : AllServable dishes n)
    (written : Array UInt8) :
    ∃ dishes' : Shelf UInt32 Stack, Emptied n dishes dishes' ∧
      ∀ count, dishesFrom dishes written (n + count) 1 =
        dishesFrom dishes' (written ++ [lineFeed].intercalate (lines dishes n)) count (n + 1) := by
  -- stated for any number of dishes left, so that the next one can be taken from them
  induction n with
  | zero =>
    refine ⟨dishes, fun m => ?_, fun count => ?_⟩
    · rw [if_neg (by omega)]
    · simp [lines]
  | succ n ih =>
    rw [allServable_succ] at h
    obtain ⟨dishes₁, hemptied, hfirst⟩ := ih (by omega) h.1
    have hitems : items dishes₁ (n + 1) = items dishes (n + 1) := hemptied.items hn
    obtain ⟨dishes', hdishes', hnext⟩ :=
      dishesFrom_succ_of_servable (hitems ▸ h.2)
        (written ++ [lineFeed].intercalate (lines dishes n))
    refine ⟨dishes', hemptied.succ hn hdishes', fun count => ?_⟩
    rw [Nat.add_assoc, Nat.add_comm 1 count, hfirst, hnext, hitems, append_intercalate, lines_succ]

/-! ### Values that cannot be served -/

/-- Where not all values can be served, there is a first one that cannot. -/
theorem exists_refused (h : ¬ AllServable dishes n) :
    ∃ m above v below, m < n ∧ AllServable dishes m ∧
      items dishes (m + 1) = above ++ v :: below ∧ (∀ u ∈ above, u.Servable) ∧ ¬ v.Servable := by
  induction n with
  | zero => exact absurd (fun m hm => by simp at hm) h
  | succ n ih =>
    by_cases hn : AllServable dishes n
    · have hdish : ¬ ∀ v ∈ items dishes (n + 1), v.Servable := fun hv =>
        h (allServable_succ.2 ⟨hn, hv⟩)
      obtain ⟨v, hfind⟩ : ∃ v, (items dishes (n + 1)).find? (¬ ·.Servable) = some v := by
        simpa [← Option.isSome_iff_exists] using hdish
      obtain ⟨hv, above, below, hitems, habove⟩ := List.find?_eq_some_iff_append.1 hfind
      exact ⟨n, above, v, below, n.lt_succ_self, hn, hitems, by simpa using habove,
        by simpa using hv⟩
    · obtain ⟨m, above, v, below, hm, hrest⟩ := ih hn
      exact ⟨m, above, v, below, by omega, hrest⟩

theorem get?_of_items (h : items dishes n = above ++ v :: below) :
    dishes.get? (UInt32.ofNat n) = some { items := above ++ v :: below } := by
  cases hdish : dishes.get? (UInt32.ofNat n) with
  | none => simp [items, hdish, Stack.empty] at h
  | some dish =>
    simp only [items, hdish, Option.getD_some] at h
    rw [← h]

/-- A value that cannot be served is where serving ends. -/
theorem dishesFrom_of_refused (hitems : items dishes n = above ++ v :: below)
    (habove : ∀ u ∈ above, u.Servable) (hv : ¬ v.Servable) (written : Array UInt8)
    (count : Nat) :
    dishesFrom dishes written (count + 1) n =
      { dishes := dishes.insert (UInt32.ofNat n) { items := below }
        written := (if n > 1 then written.push lineFeed else written) ++ Value.wordings above
        refused := some v.number } := by
  rw [dishesFrom, get?_of_items hitems]
  simp only [values_of_refused habove hv]

/-! ### The first dishes -/

theorem firstDishes_of_servable {c : Int64} (hn : n = min c.toInt.toNat (UInt32.size - 1))
    (h : AllServable dishes n) (written : Array UInt8) :
    ∃ dishes' : Shelf UInt32 Stack, Emptied n dishes dishes' ∧
      firstDishes dishes written c =
        { dishes := dishes'
          written := written ++ [lineFeed].intercalate (lines dishes n) } := by
  have hsize : 0 < UInt32.size := by decide
  have hlt : n < UInt32.size := by omega
  obtain ⟨dishes', hemptied, hserved⟩ := dishesFrom_of_servable hlt h written
  refine ⟨dishes', hemptied, ?_⟩
  rw [firstDishes, ← hn, ← Nat.add_zero n, hserved, dishesFrom]
  rfl

theorem firstDishes_of_refused {c : Int64} {m : Nat}
    (hm : m < min c.toInt.toNat (UInt32.size - 1)) (h : AllServable dishes m)
    (hitems : items dishes (m + 1) = above ++ v :: below) (habove : ∀ u ∈ above, u.Servable)
    (hv : ¬ v.Servable) (written : Array UInt8) :
    ∃ dishes' : Shelf UInt32 Stack, Emptied m dishes dishes' ∧
      firstDishes dishes written c =
        { dishes := dishes'.insert (UInt32.ofNat (m + 1)) { items := below }
          written :=
            written ++ [lineFeed].intercalate (lines dishes m ++ [Value.wordings above])
          refused := some v.number } := by
  have hlt : m + 1 < UInt32.size := by omega
  obtain ⟨rest, hrest⟩ := Nat.exists_eq_add_of_lt hm
  obtain ⟨dishes', hemptied, hserved⟩ := dishesFrom_of_servable (by omega) h written
  have hsame := (hemptied.items hlt).trans hitems
  refine ⟨dishes', hemptied, ?_⟩
  rw [firstDishes, hrest, Nat.add_assoc, hserved, dishesFrom_of_refused hsame habove hv,
    append_intercalate]

end Served

/-! ## Statements that serve -/

/-- How many dishes a statement of the main recipe asks for, if it serves. -/
def Instruction.dishes? (i : Instruction) : Option Int64 :=
  match i.action with
  | .serve => some (i.count.getD 0)
  | .refrigerate => i.count
  | _ => none

/-- What follows once dishes are served: the next statement, or the end of the
recipe if they were served to stop. -/
def Instruction.afterServing (i : Instruction) (f : Frame) (k : Kitchen) : Turn :=
  if i.action = .serve then .goOn f.advance k
  else { outcome := .ends .done, frame := f, kitchen := k }

section

variable {p : Program} {limit : UInt32} {fuel : Nat} {i : Instruction} {c : Int64} {f : Frame}
  {k : Kitchen}

theorem turn_eq_serveStep (hi : i.dishes? = some c) :
    p.turn limit fuel 0 i f k = serveStep c f k i.afterServing := by
  unfold Instruction.dishes? at hi
  unfold Program.turn step tryStep Instruction.afterServing
  split at hi
  · next ha =>
    obtain rfl : i.count.getD 0 = c := Option.some.inj hi
    simp [ha]
  · next ha => simp [ha, refrigerateStep, hi]
  · cases hi

end

/-- Serving is exact.  A statement of the main recipe that asks for `c` dishes
writes the first ones, as far as there are numbers for them, with a line feed
between two of them and each from top to bottom, and leaves them empty.  If a
value on the way cannot be served, then what comes before it is written and gone,
the value is gone, and everything behind it stays.  For no dishes or less, nothing
happens. -/
theorem turn_serves_dishes {i : Instruction} {c : Int64} (hi : i.dishes? = some c) (p : Program)
    (limit : UInt32) (fuel : Nat) (f : Frame) (k : Kitchen) :
    let last := (min c.toInt (UInt32.size - 1)).toNat
    (Served.AllServable f.dishes last →
      ∃ dishes, Served.Emptied last f.dishes dishes ∧
        p.turn limit fuel 0 i f k = i.afterServing { f with dishes }
          { k with served := k.served ++ [lineFeed].intercalate (Served.lines f.dishes last) }) ∧
    (¬ Served.AllServable f.dishes last →
      ∃ n above v below dishes, n < last ∧ Served.AllServable f.dishes n ∧
        f.dishes.get? (UInt32.ofNat (n + 1)) = some { items := above ++ v :: below } ∧
        (∀ u ∈ above, u.Servable) ∧ ¬ v.Servable ∧ Served.Emptied n f.dishes dishes ∧
        p.turn limit fuel 0 i f k =
          .fail { f with dishes := dishes.insert (UInt32.ofNat (n + 1)) { items := below } }
            { k with
              served := k.served ++
                [lineFeed].intercalate (Served.lines f.dishes n ++ [Value.wordings above]) }
            (.noCharacter v.number)) ∧
    (c ≤ 0 → p.turn limit fuel 0 i f k = i.afterServing f k) := by
  intro last
  have hlast : last = min c.toInt.toNat (UInt32.size - 1) := by
    simp only [last]
    omega
  refine ⟨fun h => ?_, fun h => ?_, fun h => ?_⟩
  · obtain ⟨dishes, hemptied, hserved⟩ := Served.firstDishes_of_servable hlast h k.served
    refine ⟨dishes, hemptied, ?_⟩
    rw [turn_eq_serveStep hi, serveStep, hserved]
  · obtain ⟨n, above, v, below, hn, hbefore, hitems, habove, hv⟩ := Served.exists_refused h
    obtain ⟨dishes, hemptied, hserved⟩ :=
      Served.firstDishes_of_refused (hlast ▸ hn) hbefore hitems habove hv k.served
    refine ⟨n, above, v, below, dishes, hn, hbefore, Served.get?_of_items hitems, habove, hv,
      hemptied, ?_⟩
    rw [turn_eq_serveStep hi, serveStep, hserved]
  · have hnone : min c.toInt.toNat (UInt32.size - 1) = 0 := by
      have hc := Int64.le_iff_toInt_le.1 h
      simp at hc ⊢
      omega
    rw [turn_eq_serveStep hi, serveStep, Served.firstDishes, hnone, Served.dishesFrom]

/-- Four dishes are asked for where there is no second and no fourth one. -/
theorem turn_serves_dishes_toast :
    let serve : Instruction := { action := .serve, count := some 4 }
    let first : Stack := { items := [{ number := 72, liquid := true }, { number := 5 }] }
    let third : Stack := { items := [{ number := -1 }, { number := 233, liquid := true }] }
    let f : Frame :=
      { recipe := { name := "Toast" }, dishes := .ofList [(1, first), (3, third), (5, first)] }
    ∀ (p : Program) (limit : UInt32) (fuel : Nat) (k : Kitchen), ∃ dishes,
      Served.Emptied 4 f.dishes dishes ∧
        p.turn limit fuel 0 serve f k = .goOn { f with dishes, ip := 1 }
          { k with served := k.served ++ ofString "H5\n\n-1é\n" } := by
  intro serve first third f p limit fuel k
  obtain ⟨dishes, hemptied, hturn⟩ :=
    (turn_serves_dishes (i := serve) rfl p limit fuel f k).1 (by decide +kernel)
  have hwritten : [lineFeed].intercalate (Served.lines f.dishes 4) = ofString "H5\n\n-1é\n" := by
    decide +kernel
  refine ⟨dishes, hemptied, hturn.trans ?_⟩
  rw [← hwritten]
  rfl

end Cookbook
