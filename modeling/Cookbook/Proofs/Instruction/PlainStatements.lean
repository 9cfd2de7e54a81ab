import Cookbook.Proofs.Instruction.Spoken

/-!
# Cookbook.Proofs.Instruction.PlainStatements

Plain statements are read as they are meant: the words of the statement that is
written for a spoken instruction ask for that instruction (`Spoken.asks`).  No
phrase that comes earlier in the table takes the sentence, and the phrase it is
written after cuts it where it was put together, whatever words the ingredient
has.
-/

namespace Cookbook

open Pattern

/-! ## What a sentence asks for -/

/-- Whether some words, taken as a sentence, ask for an instruction that stands
nowhere. -/
def Asks (ls : List Text) (i : Instruction) : Prop :=
  ∃ p c, Phrase.find? (ls.map Token.ofLexeme) = some (p, c) ∧ p.objection? c = none ∧
    p.instruction c {} = i

/-- A sentence asks for what the first phrase that it fits makes of it. -/
theorem asks_of_mem {w : Text} {ls : List Text} {p : Phrase} {Q : List Phrase} {es : Pattern}
    {a : Action} {g : Agreement} {c : Captures} {i : Instruction} (hp : p ∈ Phrase.all)
    (heq : p = { pattern := es, action := a, agreement := g })
    (hqs : p.before.filter (Phrase.mayOpen w) = Q)
    (hbefore : ∀ q ∈ Q, ∀ cs, ¬ q.pattern.Spells (w :: ls) cs)
    (hc : es.match? ((w :: ls).map Token.ofLexeme) = some c)
    (hobj : Phrase.objection? { pattern := es, action := a, agreement := g } c = none)
    (hi : Phrase.instruction { pattern := es, action := a, agreement := g } c {} = i) :
    Asks (w :: ls) i := by
  subst heq
  exact ⟨_, c, Phrase.find?_eq_of_mem hp hqs hbefore hc, hobj, hi⟩

/-- Reading a sentence is finding what its words ask for. -/
theorem read_eq_ok_some_iff {s : List Token} {ls : List Text} {i : Instruction}
    (hs : s.map Token.bare = ls.map Token.ofLexeme) :
    (∃ j, Instruction.read s = .ok (some j) ∧ j.unplaced = i) ↔ ls ≠ [] ∧ Asks ls i := by
  have hfind : Phrase.find? (ls.map Token.ofLexeme) = Phrase.find? s := by
    rw [← hs, Phrase.find?_map_bare]
  have hnil : ls = [] ↔ s = [] := by
    rw [← List.map_eq_nil_iff (f := Token.ofLexeme), ← hs, List.map_eq_nil_iff]
  rw [ne_eq, hnil, Asks, hfind]
  cases s with
  | nil => simp [Instruction.read]
  | cons t s =>
    simp only [Instruction.read, reduceCtorEq, not_false_eq_true, true_and]
    constructor
    · rintro ⟨j, hj, rfl⟩
      split at hj
      · cases hj
      · next p c hpc =>
        split at hj
        · cases hj
        · next hobj =>
          cases hj
          exact ⟨p, c, hpc, hobj, rfl⟩
    · rintro ⟨p, c, hpc, hobj, rfl⟩
      refine ⟨p.instruction c t.location, ?_, rfl⟩
      simp only [hpc, hobj]

/-! ## Plain statements are read as they are meant -/

section

variable {X : List Text} {cs : List Capture} {b d : UInt32} {n : Int64}

theorem spells_take_iff (hX : X ≠ []) :
    Spells ["Take", .ingredient, "from", .optional "the", "refrigerator"]
        ("Take" :: (X ++ [Text.ofString "from", "the", "refrigerator"])) cs ↔
      cs = [.nothing, .ingredient (X.map Token.ofLexeme), .nothing, .nothing, .nothing] := by
  simp only [spells_word_iff, spells_ingredient_iff, spells_optional_iff, spells_nil_iff]
  constructor
  · rintro ⟨_, _, h, rfl, X', _, _, rfl, rfl, -, _, _, rfl, rfl, _, rfl, h'⟩
    have h := (List.cons.inj h).2
    rcases h' with ⟨_, _, rfl, rfl, rfl, rfl⟩ | ⟨_, rfl, _, _, rfl, rfl, rfl, rfl⟩
    · have h : (X ++ [Text.ofString "from"]) ++ [Text.ofString "the", "refrigerator"] =
          X' ++ [Text.ofString "from", "refrigerator"] := by simpa using h
      obtain ⟨-, htail⟩ := List.append_inj' h rfl
      simp at htail
    · rw [(List.append_inj' h rfl).1]
  · rintro rfl
    exact ⟨_, _, rfl, rfl, X, _, _, rfl, rfl, hX, _, _, rfl, rfl, _, rfl,
      .inr ⟨_, rfl, _, _, rfl, rfl, rfl, rfl⟩⟩

/-- A sentence about an ingredient and a bowl is cut at the last separator. -/
theorem spells_working_iff {o w : Text} {v : Vessel} (hX : X ≠ []) (hw : v.IsOutside w)
    (hb : b ≠ 0) :
    Spells [.word o, .ingredient, .word w, .vessel v] (o :: (X ++ w :: v.wording b)) cs ↔
      cs = [.nothing, .ingredient (X.map Token.ofLexeme), .nothing, .vessel v b] := by
  simp [spells_word_cons_iff, spells_ingredient_word_vessel_iff (v.names_wording hb) hw hX]

theorem asks_working {a : Action} {o w : Text} {p : Phrase} {Q : List Phrase}
    (ha : a.bowlWords? = some (o, w)) (hp : p ∈ Phrase.all)
    (heq : p = { pattern := [.word o, .ingredient, .word w, Phrase.bowl], action := a })
    (hqs : p.before.filter (Phrase.mayOpen o) = Q)
    (hbefore : ∀ q ∈ Q, ∀ cs, ¬ q.pattern.Spells (o :: (X ++ w :: Vessel.bowl.wording b)) cs)
    (hX : X ≠ []) (hb : b ≠ 0) :
    Asks (o :: (X ++ w :: Vessel.bowl.wording b))
      { action := a, ingredient := joined X, bowl := b } := by
  have hw : Vessel.bowl.IsOutside w := by
    cases a <;> cases ha <;> decide
  refine asks_of_mem hp heq hqs hbefore
    (match?_eq_of_iff fun _ => spells_working_iff hX hw hb) ?_ ?_
  · cases a <;> cases ha <;> rfl
  · cases a <;> cases ha <;> rfl

/-- Only the dry ingredients are added by a phrase of their own. -/
theorem not_spells_addDry (hX : X ≠ [Text.ofString "dry", "ingredients"]) (hb : b ≠ 0) {q : Phrase}
    (hq : q ∈ Phrase.addTo.before.filter (Phrase.mayOpen "Add")) :
    ¬ q.pattern.Spells ("Add" :: (X ++ Text.ofString "to" :: Vessel.bowl.wording b)) cs := by
  have hqs : Phrase.addTo.before.filter (Phrase.mayOpen "Add") = [.addDryTo, .addDry] := rfl
  simp only [hqs, List.mem_cons, List.not_mem_nil, or_false] at hq
  rcases hq with rfl | rfl
  · simp only [Phrase.addDryTo, Phrase.bowl, spells_word_iff, spells_vessel_iff, spells_nil_iff]
    rintro ⟨_, _, h, -, _, _, rfl, -, _, _, rfl, -, _, _, rfl, -, B, n, _, _, rfl, -, hB, rfl, -⟩
    rw [List.append_nil, List.cons.injEq] at h
    have hout : Vessel.bowl.IsOutside "to" := by decide
    obtain ⟨rfl, -⟩ := append_cons_inj_of_last (Y := [Text.ofString "dry", "ingredients"]) h.2
      hout hout (fun _ => (Vessel.bowl.names_wording hb).not_isOutside) fun _ => hB.not_isOutside
    exact hX rfl
  · simp only [Phrase.addDry, spells_word_iff, spells_nil_iff]
    rintro ⟨_, _, h, -, _, _, rfl, -, _, _, rfl, -, rfl, -⟩
    have hlen := congrArg List.length h
    simp [Vessel.wording] at hlen
    omega

/-- A sentence that ends with a bowl gives no time. -/
theorem not_spells_stir {w : Text} (hb : b ≠ 0) {q : Phrase}
    (hq : q ∈ Phrase.stirInto.before.filter (Phrase.mayOpen "Stir")) :
    ¬ q.pattern.Spells ("Stir" :: (X ++ w :: Vessel.bowl.wording b)) cs := by
  have hlist : Text.ofString "Stir" :: (X ++ w :: Vessel.bowl.wording b) =
      (Text.ofString "Stir" :: X ++ [w]) ++ Vessel.bowl.wording b := by simp
  have hnot (es : Pattern) (u : Text) (hu : Vessel.bowl.IsOutside u) :
      ¬ Spells (es ++ [.word u]) ("Stir" :: (X ++ w :: Vessel.bowl.wording b)) cs := by
    rw [hlist]
    exact not_spells_of_isOutside (Vessel.bowl.names_wording hb) hu
  have hqs : Phrase.stirInto.before.filter (Phrase.mayOpen "Stir") =
      [.stirMinute, .stirMinutes, .stirForMinute, .stirForMinutes] := rfl
  simp only [hqs, List.mem_cons, List.not_mem_nil, or_false] at hq
  rcases hq with rfl | rfl | rfl | rfl
  · exact hnot ["Stir", Phrase.bowl, "for", .number] "minute" (by decide)
  · exact hnot ["Stir", Phrase.bowl, "for", .number] "minutes" (by decide)
  · exact hnot ["Stir", "for", .number] "minute" (by decide)
  · exact hnot ["Stir", "for", .number] "minutes" (by decide)

/-- A time is read in the number that its unit stands in. -/
theorem spells_amount_iff {unit : Text} (hn : 0 ≤ n) {u : Text} :
    Spells [.number, .word u] (Instruction.amount n unit) cs ↔
      u = (if n = 1 then unit else unit ++ "s") ∧ cs = [.number n, .nothing] := by
  rw [Instruction.amount, spells_number_cons_iff (Token.Kind.ofLexeme_ofInt64 hn)]
  simp only [spells_word_cons_iff, spells_nil_iff]
  grind

theorem asks_stir (hb : b ≠ 0) (hn : 0 ≤ n) :
    Asks ("Stir" :: (Vessel.bowl.wording b ++ Text.ofString "for" :: Instruction.amount n "minute"))
      { action := .stir, bowl := b, count := some n } := by
  have hspells (u : Text) (cs : List Capture) :
      Spells [.word "Stir", Phrase.bowl, .word "for", .number, .word u]
          ("Stir" :: (Vessel.bowl.wording b ++
            Text.ofString "for" :: Instruction.amount n "minute")) cs ↔
        u = (if n = 1 then Text.ofString "minute" else Text.ofString "minute" ++ "s") ∧
          cs = [.nothing, .vessel .bowl b, .nothing, .number n, .nothing] := by
    rw [spells_word_cons_iff, Phrase.bowl]
    simp only [spells_vessel_word_iff (Vessel.bowl.names_wording hb)
      (show Vessel.bowl.IsOutside "for" by decide), spells_amount_iff hn]
    grind
  by_cases h1 : n = 1
  · refine asks_of_mem (p := .stirMinute) (by decide) rfl (Q := []) rfl (by simp)
      (match?_eq_of_iff fun cs => (hspells "minute" cs).trans (and_iff_right ?_)) ?_ rfl
    · rw [if_pos h1]
    · subst h1
      rfl
  · refine asks_of_mem (p := .stirMinutes) (by decide) rfl (Q := [_]) rfl ?_
      (match?_eq_of_iff fun cs => (hspells "minutes" cs).trans (and_iff_right ?_)) ?_ rfl
    · intro q hq cs hcs
      rw [List.mem_singleton] at hq
      subst hq
      have hunit := ((hspells "minute" cs).1 hcs).1
      rw [if_neg h1] at hunit
      exact absurd hunit (by decide)
    · rw [if_neg h1]
      rfl
    · simp [Phrase.objection?, Captures.ofList, Captures.record, h1, Int64.not_lt, hn]

theorem asks_refrigerateFor (hn : 1 ≤ n) :
    Asks ("Refrigerate" :: "for" :: Instruction.amount n "hour")
      { action := .refrigerate, count := some n } := by
  have h0 : 0 ≤ n := Int64.le_trans (by decide) hn
  have hspells (u : Text) (cs : List Capture) :
      Spells [.word "Refrigerate", .word "for", .number, .word u]
          ("Refrigerate" :: "for" :: Instruction.amount n "hour") cs ↔
        u = (if n = 1 then Text.ofString "hour" else Text.ofString "hour" ++ "s") ∧
          cs = [.nothing, .nothing, .number n, .nothing] := by
    simp only [spells_word_cons_iff, spells_amount_iff h0]
    grind
  have hbare (cs : List Capture) :
      ¬ Spells ["Refrigerate"] ("Refrigerate" :: "for" :: Instruction.amount n "hour") cs := by
    simp [spells_word_cons_iff, spells_nil_iff]
  by_cases h1 : n = 1
  · refine asks_of_mem (p := .refrigerateHour) (by decide) rfl (Q := [_]) rfl ?_
      (match?_eq_of_iff fun cs => (hspells "hour" cs).trans (and_iff_right ?_)) ?_ rfl
    · intro q hq
      rw [List.mem_singleton] at hq
      subst hq
      exact hbare
    · rw [if_pos h1]
    · subst h1
      rfl
  · refine asks_of_mem (p := .refrigerateHours) (by decide) rfl (Q := [_, _]) rfl ?_
      (match?_eq_of_iff fun cs => (hspells "hours" cs).trans (and_iff_right ?_)) ?_ rfl
    · intro q hq cs hcs
      rw [List.mem_cons, List.mem_singleton] at hq
      rcases hq with rfl | rfl
      · exact hbare cs hcs
      · have hunit := ((hspells "hour" cs).1 hcs).1
        rw [if_neg h1] at hunit
        exact absurd hunit (by decide)
    · rw [if_neg h1]
      rfl
    · simp [Phrase.objection?, Captures.ofList, Captures.record, h1, Int64.not_lt, hn]

/-! ### Ends of loops -/

variable {V k : Text}

/-- No phrase of the table but those of loops takes a sentence that ends with
`until` and a word, unless it takes every sentence with the same first word. -/
theorem not_spells_before_loopEnd {ls L : List Text} {u : Text} {q : Phrase}
    (hfirst : ∀ q ∈ Phrase.all, q.pattern ≠ [.word V, .ingredient]) (hu : u ≠ "with")
    (hls : V :: u :: ls = L ++ [Text.ofString "until", k])
    (hq : q ∈ Phrase.loopEndOf.before.filter (Phrase.mayOpen V)) :
    ¬ q.pattern.Spells (V :: u :: ls) cs := by
  rw [List.mem_filter] at hq
  obtain ⟨hmem, hopen⟩ := hq
  by_cases hend : q.pattern.mayEndUntil
  · have hall : q ∈ Phrase.all := (List.takeWhile_sublist _).subset hmem
    have hqs : q ∈ Phrase.loopEndOf.before.filter (·.pattern.mayEndUntil) :=
      List.mem_filter.2 ⟨hmem, hend⟩
    have hlist : (Phrase.loopEndOf.before.filter (·.pattern.mayEndUntil)).map (·.pattern) =
        (["Add", "Remove", "Combine", "Divide", "Liquefy", "Liquify"].map fun w =>
            [Element.word (Text.ofString w), .ingredient]) ++
          [[Element.word "Serve", Element.word "with", .recipe]] := rfl
    have hpattern := List.mem_map_of_mem (f := fun q : Phrase => q.pattern) hqs
    rw [hlist, List.mem_append, List.mem_map, List.mem_singleton] at hpattern
    rcases hpattern with ⟨w, -, h⟩ | h
    · simp only [Phrase.mayOpen, ← h, decide_eq_true_eq] at hopen
      exact absurd h.symm (hopen ▸ hfirst q hall)
    · rw [h, spells_word_cons_iff]
      rintro ⟨-, _, -, hwith⟩
      exact hu (spells_word_cons_iff.1 hwith).1
  · rw [hls]
    exact not_spells_of_mayEndUntil (by simpa using hend)

theorem captures?_verb_cons {es : Pattern} {s : List Token} (hV : (Token.ofLexeme V).isWord) :
    captures? (.verb :: es) (Token.ofLexeme V :: s) = (captures? es s).map (.verb V :: ·) := by
  rw [captures?, Element.readings, Element.oneWord, if_pos hV, List.findSome?_singleton]
  rfl

/-- A word that may be left out is taken if the rest can do without it. -/
theorem captures?_optional_cons {es : Pattern} {s : List Token} {w : Text} {ds : List Capture}
    (h : captures? es s = some ds) :
    captures? (.optional w :: es) (Token.ofLexeme w :: s) = some (.nothing :: ds) := by
  rw [captures?, Element.readings, Element.literal, if_pos (Token.lexeme_ofLexeme w),
    List.singleton_append, List.findSome?_cons]
  simp only [h, Option.map_some]

theorem asks_loopEnd (hV : (Token.ofLexeme V).isWord) (hk : (Token.ofLexeme k).isWord)
    (hlower : k.lower = k) (hfirst : ∀ q ∈ Phrase.all, q.pattern ≠ [.word V, .ingredient]) :
    Asks [V, "until", k] { action := .loopEnd, name := V, keyword := k } := by
  refine asks_of_mem (p := .loopEnd) (by decide) rfl (Q := _) rfl ?_
    (match?_eq_of_iff (D := [.verb V, .nothing, .verbed k]) fun cs => ?_) rfl ?_
  · intro q hq cs
    have hbefore : Phrase.loopEnd.before = Phrase.loopEndOf.before ++ [.loopEndOf] := rfl
    rw [hbefore, List.filter_append, List.mem_append] at hq
    rcases hq with hq | hq
    · exact not_spells_before_loopEnd hfirst (by decide) (L := [V]) rfl hq
    · -- the ingredient would have to be empty
      obtain rfl := List.mem_singleton.1 (List.mem_of_mem_filter hq)
      simp only [Phrase.loopEndOf, spells_verb_iff, spells_optional_iff, spells_ingredient_iff,
        spells_word_iff, spells_verbed_iff, spells_nil_iff]
      rintro ⟨_, _, _, h, -, -, _, -,
        ⟨Y, _, _, rfl, -, hY, _, _, rfl, -, _, _, _, rfl, -, -, rfl, -⟩ |
          ⟨_, rfl, Y, _, _, rfl, -, hY, _, _, rfl, -⟩⟩
      · exact hY (by simpa using congrArg List.length h)
      · simp at h
  · simp only [spells_verb_iff, spells_word_iff, spells_verbed_iff, spells_nil_iff]
    grind
  · simp [Phrase.instruction, Captures.ofList, Captures.record, hlower]

theorem asks_loopEnd_the (hX : X ≠ []) (hV : (Token.ofLexeme V).isWord)
    (hk : (Token.ofLexeme k).isWord) (hlower : k.lower = k)
    (hfirst : ∀ q ∈ Phrase.all, q.pattern ≠ [.word V, .ingredient]) :
    Asks (V :: "the" :: (X ++ [Text.ofString "until", k]))
      { action := .loopEnd, name := V, ingredient := joined X, keyword := k } := by
  -- `the` may belong to the ingredient too, but is tried as the article first
  have htail : captures? [.ingredient, "until", .verbed]
      ((X ++ [Text.ofString "until", k]).map Token.ofLexeme) =
        some [.ingredient (X.map Token.ofLexeme), .nothing, .verbed k] := by
    refine captures?_eq_of_iff fun cs => ?_
    show Spells _ _ _ ↔ _
    simp only [spells_ingredient_iff, spells_word_iff, spells_verbed_iff, spells_nil_iff]
    constructor
    · rintro ⟨Y, _, _, h, rfl, -, _, _, rfl, rfl, _, _, _, rfl, rfl, -, rfl, rfl⟩
      obtain ⟨rfl, h⟩ := List.append_inj' h rfl
      simp_all
    · rintro rfl
      exact ⟨X, _, _, rfl, rfl, hX, _, _, rfl, rfl, k, _, _, rfl, rfl, hk, rfl, rfl⟩
  have hmatch : Pattern.match? [.verb, .optional "the", .ingredient, "until", .verbed]
      ((V :: "the" :: (X ++ [Text.ofString "until", k])).map Token.ofLexeme) =
        some (Captures.ofList [.verb V, .nothing, .ingredient (X.map Token.ofLexeme), .nothing,
          .verbed k]) := by
    rw [match?_eq, List.map_cons, List.map_cons, captures?_verb_cons hV,
      captures?_optional_cons htail]
    rfl
  refine asks_of_mem (p := .loopEndOf) (by decide) rfl (Q := _) rfl ?_ hmatch rfl ?_
  · intro q hq cs
    exact not_spells_before_loopEnd hfirst (by decide) (L := V :: "the" :: X) rfl hq
  · simp [Phrase.instruction, Captures.ofList, Captures.record, hlower, joined]

end

/-- The plain statement of a spoken instruction asks for it. -/
theorem Spoken.asks {X : List Text} {i : Instruction} (h : Spoken X i) : Asks (i.words X) i := by
  cases h with
  | take hX =>
    exact asks_of_mem (p := .take) (by decide) rfl (Q := []) rfl (by simp)
      (match?_eq_of_iff fun _ => spells_take_iff hX) rfl rfl
  | @working _ a o w b ha hX hadd hb =>
    rw [Instruction.words, Instruction.opening_of_bowlWords? ha,
      Instruction.closing_of_bowlWords? ha, List.singleton_append]
    cases a with
    | put =>
      cases ha
      exact asks_working rfl (p := .put) (by decide) rfl (Q := []) rfl (by simp) hX hb
    | fold =>
      cases ha
      exact asks_working rfl (p := .fold) (by decide) rfl (Q := []) rfl (by simp) hX hb
    | add =>
      cases ha
      exact asks_working rfl (p := .addTo) (by decide) rfl rfl
        (fun _ hq _ => not_spells_addDry (hadd rfl) hb hq) hX hb
    | remove =>
      cases ha
      exact asks_working rfl (p := .removeFrom) (by decide) rfl (Q := []) rfl (by simp) hX hb
    | combine =>
      cases ha
      exact asks_working rfl (p := .combineInto) (by decide) rfl (Q := []) rfl (by simp) hX hb
    | divide =>
      cases ha
      exact asks_working rfl (p := .divideInto) (by decide) rfl (Q := []) rfl (by simp) hX hb
    | stirIngredient =>
      cases ha
      exact asks_working rfl (p := .stirInto) (by decide) rfl rfl
        (fun _ hq _ => not_spells_stir hb hq) hX hb
    | _ => cases ha
  | @liquefy _ hX hcontents =>
    show Asks ("Liquefy" :: (X ++ [])) _
    rw [List.append_nil]
    refine asks_of_mem (p := .liquefy) (by decide) rfl (Q := [_]) rfl ?_
      (match?_eq_of_iff (D := [.nothing, .ingredient (X.map Token.ofLexeme)]) fun cs => ?_) rfl rfl
    · intro q hq cs hcs
      obtain rfl := List.mem_singleton.1 hq
      simp only [Phrase.liquefyContents, Phrase.bowl, spells_word_iff, spells_vessel_iff,
        spells_nil_iff] at hcs
      obtain ⟨_, _, h, -, _, _, rfl, -, _, _, rfl, -, B, n, _, _, rfl, -, hB, rfl, -⟩ := hcs
      rw [List.append_nil, List.cons.injEq] at h
      exact hcontents B n hB h.2
    · simp [spells_word_cons_iff, spells_ingredient_last_iff hX]
  | @inBowl a b ha hb =>
    have hB := Vessel.bowl.names_wording hb
    simp only [List.mem_cons, List.not_mem_nil, or_false] at ha
    rcases ha with rfl | rfl | rfl | rfl
    · refine asks_of_mem (p := .addDryTo) (by decide) rfl (Q := []) rfl (by simp)
        (match?_eq_of_iff
          (D := [.nothing, .nothing, .nothing, .nothing, .vessel .bowl b]) fun cs => ?_) rfl rfl
      simp [Instruction.closing, Phrase.bowl, spells_word_cons_iff, spells_vessel_last_iff hB]
    · refine asks_of_mem (p := .liquefyContents) (by decide) rfl (Q := []) rfl (by simp)
        (match?_eq_of_iff (D := [.nothing, .nothing, .nothing, .vessel .bowl b]) fun cs => ?_)
        rfl rfl
      simp [Instruction.closing, Phrase.bowl, spells_word_cons_iff, spells_vessel_last_iff hB]
    · refine asks_of_mem (p := .mixBowl) (by decide) rfl (Q := []) rfl (by simp)
        (match?_eq_of_iff (D := [.nothing, .vessel .bowl b, .nothing]) fun cs => ?_) rfl rfl
      simp [Instruction.closing, Phrase.bowl, spells_word_cons_iff, spells_nil_iff,
        spells_vessel_word_iff hB (show Vessel.bowl.IsOutside "well" by decide)]
    · refine asks_of_mem (p := .clean) (by decide) rfl (Q := []) rfl (by simp)
        (match?_eq_of_iff (D := [.nothing, .vessel .bowl b]) fun cs => ?_) rfl rfl
      simp [Instruction.closing, Phrase.bowl, spells_word_cons_iff, spells_vessel_last_iff hB]
  | stir hb hn => exact asks_stir hb hn
  | @pour b d hb hd =>
    refine asks_of_mem (p := .pour) (by decide) rfl (Q := []) rfl (by simp)
      (match?_eq_of_iff
        (D := [.nothing, .nothing, .nothing, .vessel .bowl b, .nothing, .vessel .dish d])
        fun cs => ?_) rfl rfl
    simp [Instruction.closing, Phrase.bowl, Phrase.dish, spells_word_cons_iff,
      spells_vessel_word_iff (Vessel.bowl.names_wording hb)
        (show Vessel.bowl.IsOutside "into" by decide),
      spells_vessel_last_iff (Vessel.dish.names_wording hd)]
  | setAside =>
    refine asks_of_mem (p := .setAside) (by decide) rfl (Q := []) rfl (by simp)
      (match?_eq_of_iff (D := [.nothing, .nothing]) fun cs => ?_) rfl rfl
    simp [Instruction.closing, spells_word_cons_iff, spells_nil_iff]
  | serveWith hX =>
    show Asks ("Serve" :: "with" :: (X ++ [])) _
    rw [List.append_nil]
    refine asks_of_mem (p := .serveWith) (by decide) rfl (Q := []) rfl (by simp)
      (match?_eq_of_iff (D := [.nothing, .nothing, .recipe (X.map Token.ofLexeme)]) fun cs => ?_)
      rfl rfl
    simp [spells_word_cons_iff, spells_recipe_last_iff hX]
  | refrigerate =>
    refine asks_of_mem (p := .refrigerate) (by decide) rfl (Q := []) rfl (by simp)
      (match?_eq_of_iff (D := [.nothing]) fun cs => ?_) rfl rfl
    simp [Instruction.closing, spells_word_cons_iff, spells_nil_iff]
  | refrigerateFor hn => exact asks_refrigerateFor hn
  | @loopStart _ V hX hV hword hfirst =>
    show Asks (V :: "the" :: (X ++ [])) _
    rw [List.append_nil]
    refine asks_of_mem (p := .loopStart) (by decide) rfl (Q := _) rfl
      (fun q hq => hfirst q (List.mem_of_mem_filter hq))
      (match?_eq_of_iff (D := [.verb V, .nothing, .ingredient (X.map Token.ofLexeme)])
        fun cs => ?_) rfl rfl
    rw [spells_verb_iff]
    constructor
    · rintro ⟨_, _, _, h, rfl, -, hcs⟩
      obtain ⟨rfl, rfl⟩ := List.cons.inj h
      obtain ⟨-, _, rfl, hX'⟩ := spells_word_cons_iff.1 hcs
      rw [(spells_ingredient_last_iff hX).1 hX']
    · rintro rfl
      exact ⟨V, _, _, rfl, rfl, hword,
        spells_word_cons_iff.2 ⟨rfl, _, rfl, (spells_ingredient_last_iff hX).2 rfl⟩⟩
  | @loopEnd _ V k hX hV hword hk hkword hlower hfirst =>
    by_cases hj : joined X = []
    · obtain rfl := hX hj
      exact asks_loopEnd hword hkword hlower hfirst
    · have hne : X ≠ [] := fun h0 => hj (by rw [h0]; rfl)
      have hwords : Instruction.words
          { action := .loopEnd, name := V, ingredient := joined X, keyword := k } X =
            V :: "the" :: (X ++ [Text.ofString "until", k]) := by
        simp [Instruction.words, Instruction.opening, Instruction.closing, hj]
      rw [hwords]
      exact asks_loopEnd_the hne hword hkword hlower hfirst

end Cookbook
