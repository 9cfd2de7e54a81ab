import Cookbook.Proofs.Phrase.Wordings

/-!
# Cookbook.Proofs.Instruction.Spoken

The instructions that a statement can ask for (`Spoken`), and the words of the
plain statement that asks for each of them (`Instruction.words`).

A spoken instruction is an instruction together with the words that its
ingredient, or the recipe it serves with, is made of.  The words of its
statement are those words with plain ones in front and behind
(`Spoken.mem_words`), so they are well spelled (`Spoken.spelled_words`),
and with single spaces between them they are the statement
(`Spoken.wording_eq_spaced`).
-/

namespace Cookbook

/-! ## Words of a statement -/

/-- The name that some words make up. -/
def joined (X : List Text) : Text := Token.join (X.map Token.ofLexeme)

theorem joined_eq_spaced_of_ne_nil {X : List Text} (h : ∀ w ∈ X, w ≠ []) : joined X = spaced X := by
  have hne : ∀ t ∈ X.map Token.ofLexeme, t.lexeme ≠ [] := by
    intro t ht
    obtain ⟨w, hw, rfl⟩ := List.mem_map.1 ht
    exact h w hw
  have hlex : (X.map Token.ofLexeme).map (·.lexeme) = X := by simp [Function.comp_def]
  rw [joined, Token.join_eq_spaced hne, hlex]

theorem joined_eq_spaced {X : List Text} (h : Spelled X) : joined X = spaced X :=
  joined_eq_spaced_of_ne_nil fun _ hw => h.ne_nil_of_mem hw

theorem eq_nil_of_joined_eq_nil {X : List Text} (h : Spelled X) (hj : joined X = []) : X = [] := by
  rw [joined_eq_spaced h] at hj
  cases X with
  | nil => rfl
  | cons w X =>
    have hw : w ≠ [] := h.ne_nil_of_mem (by simp)
    cases X with
    | nil => exact absurd hj hw
    | cons u X => simp [spaced] at hj

/-- The word that opens a statement about an ingredient and a bowl, and the
word between the two. -/
def Action.bowlWords? : Action → Option (Text × Text)
  | put => some ("Put", "into")
  | fold => some ("Fold", "into")
  | add => some ("Add", "to")
  | remove => some ("Remove", "from")
  | combine => some ("Combine", "into")
  | divide => some ("Divide", "into")
  | stirIngredient => some ("Stir", "into")
  | _ => none

namespace Instruction

/-- A number of units, in the singular for 1. -/
def amount (n : Int64) (unit : Text) : List Text :=
  [Decimal.ofInt64 n, if n = 1 then unit else unit ++ "s"]

/-- The plain words in front of the ingredient or the recipe of a statement. -/
def opening (i : Instruction) : List Text :=
  match i.action with
  | .take => ["Take"]
  | .put => ["Put"]
  | .fold => ["Fold"]
  | .add => ["Add"]
  | .remove => ["Remove"]
  | .combine => ["Combine"]
  | .divide => ["Divide"]
  | .addDry => ["Add", "dry", "ingredients", "to"]
  | .liquefy => ["Liquefy"]
  | .liquefyContents => ["Liquefy", "contents", "of"]
  | .stir | .stirIngredient => ["Stir"]
  | .mix => ["Mix"]
  | .clean => ["Clean"]
  | .pour => ["Pour", "contents", "of"]
  | .loopStart => [i.name, "the"]
  | .loopEnd => if i.ingredient = [] then [i.name] else [i.name, "the"]
  | .setAside => ["Set", "aside"]
  | .serveWith => ["Serve", "with"]
  | .refrigerate => ["Refrigerate"]
  | .serve => ["Serves"]

/-- The plain words behind the ingredient or the recipe of a statement. -/
def closing (i : Instruction) : List Text :=
  match i.action with
  | .take => ["from", "the", "refrigerator"]
  | .put | .fold | .combine | .divide | .stirIngredient => "into" :: Vessel.bowl.wording i.bowl
  | .add => "to" :: Vessel.bowl.wording i.bowl
  | .remove => "from" :: Vessel.bowl.wording i.bowl
  | .addDry | .liquefyContents | .clean => Vessel.bowl.wording i.bowl
  | .stir =>
    Vessel.bowl.wording i.bowl ++ Text.ofString "for" :: amount (i.count.getD 0) "minute"
  | .mix => Vessel.bowl.wording i.bowl ++ [Text.ofString "well"]
  | .pour => Vessel.bowl.wording i.bowl ++ Text.ofString "into" :: Vessel.dish.wording i.dish
  | .loopEnd => ["until", i.keyword]
  | .refrigerate =>
    match i.count with
    | some n => "for" :: amount n "hour"
    | none => []
  | .serve => [Decimal.ofInt64 (i.count.getD 0)]
  | .liquefy | .loopStart | .setAside | .serveWith => []

/-- The words of the plain statement that asks for an instruction, given the
words of its ingredient or of the recipe it serves with. -/
def words (i : Instruction) (X : List Text) : List Text := i.opening ++ (X ++ i.closing)

theorem words_ne_nil (i : Instruction) (X : List Text) : i.words X ≠ [] := by
  have hopening : i.opening ≠ [] := by
    rw [opening]
    repeat' split
    all_goals simp
  simp [words, hopening]

end Instruction

/-! ## Spoken instructions -/

/-- The instructions that a statement can ask for, with the words that make up
the name in it.  The side conditions keep apart the statements that another
phrase would take. -/
inductive Spoken : List Text → Instruction → Prop where
  | take {X : List Text} (hX : X ≠ []) :
    Spoken X { action := .take, ingredient := joined X }
  | working {X : List Text} {a : Action} {o w : Text} {b : UInt32}
    (ha : a.bowlWords? = some (o, w)) (hX : X ≠ [])
    (hadd : a = .add → X ≠ [Text.ofString "dry", "ingredients"]) (hb : b ≠ 0) :
    Spoken X { action := a, ingredient := joined X, bowl := b }
  | liquefy {X : List Text} (hX : X ≠ [])
    (hcontents : ∀ (B : List Text) (n : UInt32), Vessel.bowl.Names (B.map Token.ofLexeme) n →
      X ≠ Text.ofString "contents" :: Text.ofString "of" :: B) :
    Spoken X { action := .liquefy, ingredient := joined X }
  | inBowl {a : Action} {b : UInt32} (ha : a ∈ [.addDry, .liquefyContents, .mix, .clean])
    (hb : b ≠ 0) : Spoken [] { action := a, bowl := b }
  | stir {b : UInt32} {n : Int64} (hb : b ≠ 0) (hn : 0 ≤ n) :
    Spoken [] { action := .stir, bowl := b, count := some n }
  | pour {b d : UInt32} (hb : b ≠ 0) (hd : d ≠ 0) :
    Spoken [] { action := .pour, bowl := b, dish := d }
  | setAside : Spoken [] { action := .setAside }
  | serveWith {X : List Text} (hX : X ≠ []) :
    Spoken X { action := .serveWith, name := joined X }
  | refrigerate : Spoken [] { action := .refrigerate }
  | refrigerateFor {n : Int64} (hn : 1 ≤ n) :
    Spoken [] { action := .refrigerate, count := some n }
  | loopStart {X : List Text} {V : Text} (hX : X ≠ []) (hV : V.IsPlain)
    (hword : (Token.ofLexeme V).isWord)
    (hfirst : ∀ q ∈ Phrase.loopStart.before, ∀ cs, ¬ q.pattern.Spells (V :: "the" :: X) cs) :
    Spoken X { action := .loopStart, name := V, ingredient := joined X }
  | loopEnd {X : List Text} {V k : Text} (hX : joined X = [] → X = []) (hV : V.IsPlain)
    (hword : (Token.ofLexeme V).isWord) (hk : k.IsPlain)
    (hkword : (Token.ofLexeme k).isWord) (hlower : k.lower = k)
    (hfirst : ∀ q ∈ Phrase.all, q.pattern ≠ [.word V, .ingredient]) :
    Spoken X { action := .loopEnd, name := V, ingredient := joined X, keyword := k }

theorem Action.isPlain_bowlWords {a : Action} {o w : Text} (h : a.bowlWords? = some (o, w)) :
    o.IsPlain ∧ w.IsPlain := by
  cases a <;> simp only [bowlWords?, Option.some.injEq, Prod.mk.injEq, reduceCtorEq] at h <;>
    (obtain ⟨rfl, rfl⟩ := h; decide)

theorem Instruction.opening_of_bowlWords? {i : Instruction} {o w : Text}
    (h : i.action.bowlWords? = some (o, w)) : i.opening = [o] := by
  rw [opening]
  cases ha : i.action <;> grind [Action.bowlWords?]

theorem Instruction.closing_of_bowlWords? {i : Instruction} {o w : Text}
    (h : i.action.bowlWords? = some (o, w)) : i.closing = w :: Vessel.bowl.wording i.bowl := by
  rw [closing]
  cases ha : i.action <;> grind [Action.bowlWords?]

theorem Instruction.spaced_amount (n : Int64) (unit : Text) :
    spaced (amount n unit) = quantity n unit := by
  rw [amount, quantity, spaced_cons (by simp), spaced_singleton, List.append_assoc,
    List.append_assoc]
  split
  · rw [List.append_nil]
    rfl
  · rfl

theorem Instruction.isPlain_of_mem_amount {n : Int64} {unit w : Text} (hn : 0 ≤ n)
    (hunit : unit.IsPlain ∧ Text.IsPlain (unit ++ "s")) (h : w ∈ amount n unit) : w.IsPlain := by
  rw [amount, List.mem_cons, List.mem_singleton] at h
  rcases h with rfl | rfl
  · exact Decimal.isPlain_ofInt64 hn
  · split
    · exact hunit.1
    · exact hunit.2

namespace Spoken

variable {X : List Text} {i : Instruction}

theorem isPlain_opening (h : Spoken X i) : ∀ w ∈ i.opening, w.IsPlain := by
  have hname : i.action = .loopStart ∨ i.action = .loopEnd → i.name.IsPlain := by
    intro ha
    cases h <;> grind [Action.bowlWords?]
  rw [Instruction.opening]
  split
  -- only loops are opened by a word of their own
  case h_16 ha => exact List.forall_mem_cons.2 ⟨hname (.inl ha), by decide⟩
  case h_17 ha =>
    split
    · exact List.forall_mem_cons.2 ⟨hname (.inr ha), by decide⟩
    · exact List.forall_mem_cons.2 ⟨hname (.inr ha), by decide⟩
  all_goals decide

theorem isPlain_closing (h : Spoken X i) : ∀ w ∈ i.closing, w.IsPlain := by
  have hbowl (b : UInt32) : ∀ w ∈ Vessel.bowl.wording b, w.IsPlain :=
    fun _ => Vessel.isPlain_of_mem_wording
  cases h with
  | take hX =>
    show ∀ w ∈ [Text.ofString "from", "the", "refrigerator"], w.IsPlain
    decide
  | @working _ a o w b ha hX hadd hb =>
    rw [Instruction.closing_of_bowlWords? ha]
    exact List.forall_mem_cons.2 ⟨(Action.isPlain_bowlWords ha).2, hbowl b⟩
  | liquefy hX hcontents => exact List.forall_mem_nil _
  | @inBowl a b ha hb =>
    simp only [List.mem_cons, List.not_mem_nil, or_false] at ha
    rcases ha with rfl | rfl | rfl | rfl
    · exact hbowl b
    · exact hbowl b
    · exact List.forall_mem_append.2 ⟨hbowl b, by decide⟩
    · exact hbowl b
  | @stir b n hb hn =>
    refine List.forall_mem_append.2 ⟨hbowl b, List.forall_mem_cons.2 ⟨by decide, fun _ => ?_⟩⟩
    exact Instruction.isPlain_of_mem_amount hn (by decide)
  | @pour b d hb hd =>
    refine List.forall_mem_append.2 ⟨hbowl b, List.forall_mem_cons.2 ⟨by decide, fun _ => ?_⟩⟩
    exact Vessel.isPlain_of_mem_wording
  | setAside => exact List.forall_mem_nil _
  | serveWith hX => exact List.forall_mem_nil _
  | refrigerate => exact List.forall_mem_nil _
  | @refrigerateFor n hn =>
    refine List.forall_mem_cons.2 ⟨by decide, fun _ => ?_⟩
    exact Instruction.isPlain_of_mem_amount (Int64.le_trans (by decide) hn) (by decide)
  | loopStart hX hV hword hfirst => exact List.forall_mem_nil _
  | loopEnd hX hV hword hk hkword hlower hfirst =>
    exact List.forall_mem_cons.2 ⟨by decide, List.forall_mem_cons.2 ⟨hk, List.forall_mem_nil _⟩⟩

/-- A word of a statement is plain or belongs to its ingredient or recipe. -/
theorem mem_words {w : Text} (h : Spoken X i) (hw : w ∈ i.words X) : w ∈ X ∨ w.IsPlain := by
  rw [Instruction.words, List.mem_append, List.mem_append] at hw
  rcases hw with hw | hw | hw
  · exact .inr (h.isPlain_opening w hw)
  · exact .inl hw
  · exact .inr (h.isPlain_closing w hw)

/-- The words of a statement are well spelled if those of its ingredient or
recipe are. -/
theorem spelled_words (h : Spoken X i) (hX : Spelled X) : Spelled (i.words X) := by
  have hclosing : Spelled (X ++ i.closing) := by
    cases hc : i.closing with
    | nil => rwa [List.append_nil]
    | cons w ws =>
      have hplain : ∀ u ∈ w :: ws, u.IsPlain := hc ▸ h.isPlain_closing
      exact .append_cons_of_isWordy (hplain w (by simp)).isWordy hX (spelled_of_isPlain hplain)
  have hopening := h.isPlain_opening
  rw [Instruction.words]
  generalize i.opening = front at hopening
  induction front with
  | nil => exact hclosing
  | cons w ws ih =>
    rw [List.forall_mem_cons] at hopening
    exact .cons_of_isWordy hopening.1.isWordy hopening.1.noNul (ih hopening.2)

/-- With single spaces between them the words of a statement are the statement. -/
theorem wording_eq_spaced (h : Spoken X i) (hX : Spelled X) :
    i.wording = spaced (i.words X) := by
  have hjoin := joined_eq_spaced hX
  have hbowl (b : UInt32) : Vessel.bowl.wording b ≠ [] := by simp [Vessel.wording]
  cases h with
  | take hne =>
    show "Take " ++ joined X ++ " from the refrigerator" =
      spaced ("Take" :: (X ++ [Text.ofString "from", "the", "refrigerator"]))
    rw [spaced_cons (by simp), spaced_append hne (by simp), hjoin, List.append_assoc]
    rfl
  | @working _ a o w b ha hne hadd hb =>
    have hwords : spaced (o :: (X ++ w :: Vessel.bowl.wording b)) =
        o ++ Text.space :: (joined X ++
          Text.space :: (w ++ Text.space :: spaced (Vessel.bowl.wording b))) := by
      rw [spaced_cons (by simp), spaced_append hne (by simp), spaced_cons (hbowl b), hjoin]
    rw [Instruction.words, Instruction.opening_of_bowlWords? ha,
      Instruction.closing_of_bowlWords? ha, List.singleton_append, hwords, Instruction.wording]
    cases a <;> simp only [Action.bowlWords?, reduceCtorEq, Option.some.injEq, Prod.mk.injEq] at ha
    all_goals
      obtain ⟨rfl, rfl⟩ := ha
      simp only [Instruction.bowlPhrase_eq, List.append_assoc]
      rfl
  | liquefy hne hcontents =>
    show "Liquefy " ++ joined X = spaced ("Liquefy" :: (X ++ []))
    rw [List.append_nil, spaced_cons hne, hjoin]
    rfl
  | @inBowl a b ha hb =>
    simp only [List.mem_cons, List.not_mem_nil, or_false] at ha
    rcases ha with rfl | rfl | rfl | rfl
    · show "Add dry ingredients to " ++ Instruction.bowlPhrase _ =
        spaced ([Text.ofString "Add", "dry", "ingredients", "to"] ++ Vessel.bowl.wording b)
      rw [Instruction.bowlPhrase_eq, spaced_append (by simp) (hbowl b)]
      rfl
    · show "Liquefy contents of " ++ Instruction.bowlPhrase _ =
        spaced ([Text.ofString "Liquefy", "contents", "of"] ++ Vessel.bowl.wording b)
      rw [Instruction.bowlPhrase_eq, spaced_append (by simp) (hbowl b)]
      rfl
    · show "Mix " ++ Instruction.bowlPhrase _ ++ " well" =
        spaced (Text.ofString "Mix" :: (Vessel.bowl.wording b ++ [Text.ofString "well"]))
      rw [Instruction.bowlPhrase_eq, spaced_cons (by simp), spaced_append (hbowl b) (by simp),
        List.append_assoc]
      rfl
    · show "Clean " ++ Instruction.bowlPhrase _ = spaced ("Clean" :: Vessel.bowl.wording b)
      rw [Instruction.bowlPhrase_eq, spaced_cons (hbowl b)]
      rfl
  | @stir b n hb hn =>
    show "Stir " ++ Instruction.bowlPhrase _ ++ " for " ++ Instruction.quantity n "minute" =
      spaced (Text.ofString "Stir" ::
        (Vessel.bowl.wording b ++ Text.ofString "for" :: Instruction.amount n "minute"))
    rw [Instruction.bowlPhrase_eq, spaced_cons (by simp), spaced_append (hbowl b) (by simp),
      spaced_cons (by simp [Instruction.amount]), Instruction.spaced_amount, List.append_assoc,
      List.append_assoc]
    rfl
  | @pour b d hb hd =>
    show "Pour contents of " ++ Instruction.bowlPhrase _ ++ " into " ++
        Instruction.dishPhrase _ =
      spaced ([Text.ofString "Pour", "contents", "of"] ++
        (Vessel.bowl.wording b ++ Text.ofString "into" :: Vessel.dish.wording d))
    rw [Instruction.bowlPhrase_eq, Instruction.dishPhrase_eq, spaced_append (by simp) (by simp),
      spaced_append (hbowl b) (by simp), List.append_assoc, List.append_assoc]
    rfl
  | setAside => rfl
  | serveWith hne =>
    show "Serve with " ++ joined X = spaced ("Serve" :: "with" :: (X ++ []))
    rw [List.append_nil, spaced_cons (by simp), spaced_cons hne, hjoin]
    rfl
  | refrigerate => rfl
  | @refrigerateFor n hn =>
    show "Refrigerate for " ++ Instruction.quantity n "hour" =
      spaced ("Refrigerate" :: "for" :: Instruction.amount n "hour")
    rw [spaced_cons (by simp), spaced_cons (by simp [Instruction.amount]),
      Instruction.spaced_amount]
    rfl
  | @loopStart _ V hne hV hword hfirst =>
    show V ++ " the " ++ joined X = spaced (V :: "the" :: (X ++ []))
    rw [List.append_nil, spaced_cons (by simp), spaced_cons hne, hjoin, List.append_assoc]
    rfl
  | @loopEnd _ V k hne hV hword hk hkword hlower hfirst =>
    show V ++ (if (joined X).isEmpty then [] else Text.ofString " the " ++ joined X) ++
        Text.ofString " until " ++ k =
      spaced ((if joined X = [] then [V] else [V, "the"]) ++ (X ++ [Text.ofString "until", k]))
    by_cases hj : joined X = []
    · rw [if_pos (by simp [hj]), if_pos hj, hne hj, List.append_nil, List.nil_append,
        List.singleton_append, List.append_assoc]
      rfl
    · have hX' : X ≠ [] := fun h0 => hj (by rw [h0]; rfl)
      rw [if_neg (by simp [hj]), if_neg hj, spaced_append (by simp) (by simp),
        spaced_append hX' (by simp), hjoin]
      simp only [List.append_assoc, spaced]
      rfl

/-- No word of a statement ends it. -/
theorem fullStop_not_mem_words (h : Spoken X i) (hX : [Text.fullStop] ∉ X) :
    [Text.fullStop] ∉ i.words X := by
  intro hmem
  rcases h.mem_words hmem with hmem | hplain
  · exact hX hmem
  · exact hplain.ne_fullStop rfl

end Spoken

end Cookbook
