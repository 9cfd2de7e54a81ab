import Cookbook.Proofs.Instruction.PlainStatements

/-!
# Cookbook.Proofs.Instruction.ReadBack

A statement that is read can be written and read again.  What a sentence asks
for is spoken with words of the sentence (`spokenIn_of_asks`); the plain
statement of a spoken instruction asks for it, and its words are scanned as they
are written.  So the second reading asks for the same as the first
(`read_sentence_of_read`).
-/

namespace Cookbook

open Pattern

/-! ## What is read is spoken -/

section

variable {ls : List Text} {cs : List Capture}

/-- Whether an action starts or ends a loop. -/
def Action.isLoop : Action → Bool
  | loopStart | loopEnd => true
  | _ => false

/-- Whether an instruction is spoken with words out of a sentence; the verb of
a loop has to open the sentence. -/
def SpokenIn (ls : List Text) (i : Instruction) : Prop :=
  ∃ X, X <:+: ls ∧ Spoken X i ∧
    (i.action = .loopStart ∨ i.action = .loopEnd → ls.head? = some i.name)

theorem Spoken.spokenIn {X : List Text} {i : Instruction} (h : Spoken X i) (hX : X <:+: ls)
    (ha : i.action.isLoop = false) : SpokenIn ls i := by
  refine ⟨X, hX, h, ?_⟩
  rintro (hloop | hloop)
  · simp [hloop, Action.isLoop] at ha
  · simp [hloop, Action.isLoop] at ha

theorem spokenIn_working {a : Action} {o w : Text} {p : Pattern} (ha : a.bowlWords? = some (o, w))
    (h : Spells [.word o, .ingredient, .word w, .vessel .bowl] ls cs)
    (hadd : a = .add →
      ∀ ds, ¬ Spells ["Add", "dry", "ingredients", "to", .vessel .bowl] ls ds) :
    SpokenIn ls (Phrase.instruction { pattern := p, action := a } (Captures.ofList cs) {}) := by
  simp only [spells_word_iff, spells_ingredient_iff, spells_vessel_iff, spells_nil_iff] at h
  obtain ⟨_, _, rfl, rfl, X, _, _, rfl, rfl, hX, _, _, rfl, rfl, B, b, _, _, rfl, rfl, hB, rfl,
    rfl⟩ := h
  have hdry : a = .add → X ≠ [Text.ofString "dry", "ingredients"] := by
    rintro rfl rfl
    cases ha
    refine hadd rfl [.nothing, .nothing, .nothing, .nothing, .vessel .bowl b] ?_
    simp [spells_word_cons_iff, spells_vessel_last_iff hB]
  have hspoken := Spoken.working ha hX hdry hB.ne_zero
  refine Spoken.spokenIn (X := X) ?_ ⟨[o], _, rfl⟩ ?_
  · cases a <;> cases ha <;> exact hspoken
  · cases a <;> cases ha <;> rfl

/-- A statement that names no bowl means the first. -/
theorem spokenIn_working_first {a : Action} {o w : Text} {p : Pattern}
    (ha : a.bowlWords? = some (o, w)) (h : Spells [.word o, .ingredient] ls cs)
    (hadd : a = .add → ∀ ds, ¬ Spells ["Add", "dry", "ingredients"] ls ds) :
    SpokenIn ls (Phrase.instruction { pattern := p, action := a } (Captures.ofList cs) {}) := by
  simp only [spells_word_iff, spells_ingredient_iff, spells_nil_iff] at h
  obtain ⟨_, _, rfl, rfl, X, _, _, rfl, rfl, hX, rfl, rfl⟩ := h
  have hdry : a = .add → X ≠ [Text.ofString "dry", "ingredients"] := by
    rintro rfl rfl
    cases ha
    refine hadd rfl [.nothing, .nothing, .nothing] ?_
    simp [spells_word_cons_iff, spells_nil_iff]
  have hspoken := Spoken.working (b := 1) ha hX hdry (by decide)
  refine Spoken.spokenIn (X := X) ?_ ⟨[o], [], by simp⟩ ?_
  · cases a <;> cases ha <;> exact hspoken
  · cases a <;> cases ha <;> rfl

theorem spokenIn_liquefy {o : Text} {p : Pattern} (h : Spells [.word o, .ingredient] ls cs)
    (hcontents : ∀ ds, ¬ Spells [.word o, "contents", "of", .vessel .bowl] ls ds) :
    SpokenIn ls
      (Phrase.instruction { pattern := p, action := .liquefy } (Captures.ofList cs) {}) := by
  simp only [spells_word_iff, spells_ingredient_iff, spells_nil_iff] at h
  obtain ⟨_, _, rfl, rfl, X, _, _, rfl, rfl, hX, rfl, rfl⟩ := h
  refine (Spoken.liquefy hX fun B n hB hXB => ?_).spokenIn ⟨[o], [], by simp⟩ rfl
  subst hXB
  refine hcontents [.nothing, .nothing, .nothing, .vessel .bowl n] ?_
  simp [spells_word_cons_iff, spells_vessel_last_iff hB]

theorem spokenIn_inBowl {a : Action} {b : Option UInt32} {p : Pattern}
    (ha : a ∈ [.addDry, .liquefyContents, .mix, .clean]) (hb : b ≠ some 0) :
    SpokenIn ls (Phrase.instruction { pattern := p, action := a } { bowl := b } {}) := by
  have hne : b.getD 1 ≠ 0 := by
    cases b with
    | none => decide
    | some b => simpa using hb
  have hspoken := Spoken.inBowl ha hne
  simp only [List.mem_cons, List.not_mem_nil, or_false] at ha
  refine Spoken.spokenIn (X := []) ?_ List.nil_infix ?_
  · rcases ha with rfl | rfl | rfl | rfl <;> exact hspoken
  · rcases ha with rfl | rfl | rfl | rfl <;> rfl

theorem spokenIn_stir {b : Option UInt32} {n : Int64} {g : Agreement} {p : Pattern}
    (hb : b ≠ some 0)
    (hobj : Phrase.objection? { pattern := p, action := .stir, agreement := g }
      { bowl := b, number := some n } = none) :
    SpokenIn ls (Phrase.instruction { pattern := p, action := .stir, agreement := g }
      { bowl := b, number := some n } {}) := by
  have hne : b.getD 1 ≠ 0 := by
    cases b with
    | none => decide
    | some b => simpa using hb
  have hn : 0 ≤ n := by
    simp only [Phrase.objection?] at hobj
    repeat' split at hobj
    all_goals simp_all
  exact (Spoken.stir hne hn).spokenIn List.nil_infix rfl

theorem spokenIn_refrigerateFor {n : Int64} {g : Agreement} {p : Pattern}
    (hobj : Phrase.objection? { pattern := p, action := .refrigerate, agreement := g }
      { number := some n } = none) :
    SpokenIn ls (Phrase.instruction { pattern := p, action := .refrigerate, agreement := g }
      { number := some n } {}) := by
  have hn : 1 ≤ n := by
    simp only [Phrase.objection?] at hobj
    repeat' split at hobj
    all_goals simp_all
  exact (Spoken.refrigerateFor hn).spokenIn List.nil_infix rfl

theorem spokenIn_take {p : Pattern}
    (h : Spells ["Take", .ingredient, "from", .optional "the", "refrigerator"] ls cs) :
    SpokenIn ls (Phrase.instruction { pattern := p, action := .take } (Captures.ofList cs) {}) := by
  simp only [spells_word_iff, spells_ingredient_iff, spells_optional_iff, spells_nil_iff] at h
  obtain ⟨_, _, rfl, rfl, X, rest, _, rfl, rfl, hX, _, _, rfl, rfl, _, rfl, h⟩ := h
  have hspoken (rest : List Text) : SpokenIn (Text.ofString "Take" :: (X ++ rest))
      { action := .take, ingredient := joined X } :=
    (Spoken.take hX).spokenIn ⟨["Take"], rest, rfl⟩ rfl
  rcases h with ⟨_, _, rfl, rfl, rfl, rfl⟩ | ⟨_, rfl, _, _, rfl, rfl, rfl, rfl⟩
  · exact hspoken _
  · exact hspoken _

theorem isPlain_of_spelled {w : Text} (hls : Spelled ls) (hmem : w ∈ ls)
    (hw : (Token.ofLexeme w).isWord) : w.IsPlain :=
  Token.isPlain_of_isWord (Token.isWordy_of_isWord (hls.isLexeme w hmem) hw) (hls.noNul w hmem) hw

theorem spokenIn_loopStart {p : Pattern} (hls : Spelled ls)
    (h : Spells [.verb, "the", .ingredient] ls cs)
    (hfirst : ∀ q ∈ Phrase.loopStart.before, ∀ ds, ¬ q.pattern.Spells ls ds) :
    SpokenIn ls
      (Phrase.instruction { pattern := p, action := .loopStart } (Captures.ofList cs) {}) := by
  simp only [spells_verb_iff, spells_word_iff, spells_ingredient_iff, spells_nil_iff] at h
  obtain ⟨V, _, _, rfl, rfl, hV, _, _, rfl, rfl, X, _, _, rfl, rfl, hX, rfl, rfl⟩ := h
  rw [List.append_nil] at hls hfirst ⊢
  have hVplain := isPlain_of_spelled hls (List.mem_cons_self) hV
  exact ⟨X, ⟨[V, "the"], [], by simp⟩, .loopStart hX hVplain hV hfirst, fun _ => rfl⟩

/-- The words between the verb and `until` name the ingredient, if there are
any. -/
theorem spokenIn_loopEnd {V K : Text} {X F G : List Text} {c : Captures} {p : Pattern}
    (hls : Spelled ls) (heq : ls = V :: (F ++ (X ++ G))) (hG : K ∈ G)
    (hV : (Token.ofLexeme V).isWord) (hK : (Token.ofLexeme K).isWord)
    (hc : c = { verb := V, ingredient := joined X, verbed := K })
    (hfirst : ∀ q ∈ Phrase.loopEndOf.before, ∀ ds, ¬ q.pattern.Spells ls ds) :
    SpokenIn ls (Phrase.instruction { pattern := p, action := .loopEnd } c {}) := by
  subst hc
  have hVplain := isPlain_of_spelled hls (by simp [heq]) hV
  have hKplain := isPlain_of_spelled hls (by simp [heq, hG]) hK
  have hkword := Token.isWord_ofLexeme_lower hKplain.isWordy hK
  have hkplain := Token.isPlain_of_isWord hKplain.isWordy.lower (Text.noNul_lower hKplain.noNul)
    hkword
  have hX : joined X = [] → X = [] := by
    rw [heq, ← List.singleton_append, ← List.append_assoc] at hls
    exact eq_nil_of_joined_eq_nil hls.of_append.2.of_append.1
  refine ⟨X, ⟨V :: F, G, by simp [heq]⟩,
    .loopEnd hX hVplain hV hkplain hkword (Text.lower_lower K) ?_, fun _ => by rw [heq]; rfl⟩
  -- a phrase that takes everything behind the verb would have been found first
  intro q hq hpattern
  have htable : ∀ q ∈ Phrase.all,
      q.pattern.head? = some .verb ∨ q ∈ Phrase.loopEndOf.before := by decide
  have hmem : q ∈ Phrase.loopEndOf.before := (htable q hq).resolve_left (by simp [hpattern])
  have hrest : F ++ (X ++ G) ≠ [] := by
    have hne := List.ne_nil_of_mem hG
    simp [hne]
  refine hfirst q hmem [.nothing, .ingredient ((F ++ (X ++ G)).map Token.ofLexeme)] ?_
  rw [hpattern, heq, spells_word_cons_iff]
  exact ⟨rfl, _, rfl, (spells_ingredient_last_iff hrest).2 rfl⟩

/-- What a sentence asks for is spoken with words of the sentence. -/
theorem spokenIn_of_asks {i : Instruction} (hls : Spelled ls) (h : Asks ls i) : SpokenIn ls i := by
  obtain ⟨p, c, hfind, hobj, rfl⟩ := h
  obtain ⟨hp, ⟨cs, hcs, rfl⟩, hbefore⟩ := Phrase.spells_of_find? hfind
  cases p, hp using Phrase.cases_of_mem with
  | take => exact spokenIn_take hcs
  | put | fold | removeFrom | combineInto | divideInto | stirInto =>
    exact spokenIn_working rfl hcs (by simp)
  | addTo => exact spokenIn_working rfl hcs fun _ => hbefore .addDryTo (by decide)
  | add => exact spokenIn_working_first rfl hcs fun _ => hbefore .addDry (by decide)
  | remove | combine | divide => exact spokenIn_working_first rfl hcs (by simp)
  | liquefy => exact spokenIn_liquefy hcs (hbefore .liquefyContents (by decide))
  | liquify => exact spokenIn_liquefy hcs (hbefore .liquifyContents (by decide))
  | addDryTo =>
    simp only [Phrase.addDryTo, Phrase.bowl, spells_word_iff, spells_vessel_iff,
      spells_nil_iff] at hcs
    obtain ⟨_, _, -, rfl, _, _, -, rfl, _, _, -, rfl, _, _, -, rfl, B, b, _, _, -, rfl, hB, -,
      rfl⟩ := hcs
    exact spokenIn_inBowl (b := some b) (by decide) (by simpa using hB.ne_zero)
  | addDry =>
    simp only [Phrase.addDry, spells_word_iff, spells_nil_iff] at hcs
    obtain ⟨_, _, -, rfl, _, _, -, rfl, _, _, -, rfl, -, rfl⟩ := hcs
    exact spokenIn_inBowl (b := none) (by decide) (by simp)
  | liquefyContents | liquifyContents =>
    simp only [Phrase.liquefyContents, Phrase.liquifyContents, Phrase.bowl, spells_word_iff,
      spells_vessel_iff, spells_nil_iff] at hcs
    obtain ⟨_, _, -, rfl, _, _, -, rfl, _, _, -, rfl, B, b, _, _, -, rfl, hB, -, rfl⟩ := hcs
    exact spokenIn_inBowl (b := some b) (by decide) (by simpa using hB.ne_zero)
  | stirMinute | stirMinutes =>
    simp only [Phrase.stirMinute, Phrase.stirMinutes, Phrase.bowl, spells_word_iff,
      spells_vessel_iff, spells_number_iff, spells_nil_iff] at hcs
    obtain ⟨_, _, -, rfl, B, b, _, _, -, rfl, hB, _, _, -, rfl, _, n, _, _, -, rfl, -, _, _, -, rfl,
      -, rfl⟩ := hcs
    exact spokenIn_stir (b := some b) (by simpa using hB.ne_zero) hobj
  | stirForMinute | stirForMinutes =>
    simp only [Phrase.stirForMinute, Phrase.stirForMinutes, spells_word_iff, spells_number_iff,
      spells_nil_iff] at hcs
    obtain ⟨_, _, -, rfl, _, _, -, rfl, _, n, _, _, -, rfl, -, _, _, -, rfl, -, rfl⟩ := hcs
    exact spokenIn_stir (b := none) (by simp) hobj
  | mixBowl =>
    simp only [Phrase.mixBowl, Phrase.bowl, spells_word_iff, spells_vessel_iff,
      spells_nil_iff] at hcs
    obtain ⟨_, _, -, rfl, B, b, _, _, -, rfl, hB, _, _, -, rfl, -, rfl⟩ := hcs
    exact spokenIn_inBowl (b := some b) (by decide) (by simpa using hB.ne_zero)
  | mix =>
    simp only [Phrase.mix, spells_word_iff, spells_nil_iff] at hcs
    obtain ⟨_, _, -, rfl, _, _, -, rfl, -, rfl⟩ := hcs
    exact spokenIn_inBowl (b := none) (by decide) (by simp)
  | clean =>
    simp only [Phrase.clean, Phrase.bowl, spells_word_iff, spells_vessel_iff, spells_nil_iff] at hcs
    obtain ⟨_, _, -, rfl, B, b, _, _, -, rfl, hB, -, rfl⟩ := hcs
    exact spokenIn_inBowl (b := some b) (by decide) (by simpa using hB.ne_zero)
  | pour =>
    simp only [Phrase.pour, Phrase.bowl, Phrase.dish, spells_word_iff, spells_vessel_iff,
      spells_nil_iff] at hcs
    obtain ⟨_, _, -, rfl, _, _, -, rfl, _, _, -, rfl, B, b, _, _, -, rfl, hB, _, _, -, rfl, D, d, _,
      _, -, rfl, hD, -, rfl⟩ := hcs
    exact (Spoken.pour hB.ne_zero hD.ne_zero).spokenIn List.nil_infix rfl
  | setAside =>
    simp only [Phrase.setAside, spells_word_iff, spells_nil_iff] at hcs
    obtain ⟨_, _, -, rfl, _, _, -, rfl, -, rfl⟩ := hcs
    exact Spoken.setAside.spokenIn List.nil_infix rfl
  | serveWith =>
    simp only [Phrase.serveWith, spells_word_iff, spells_recipe_iff, spells_nil_iff] at hcs
    obtain ⟨_, _, rfl, rfl, _, _, rfl, rfl, X, _, _, rfl, rfl, hX, rfl, rfl⟩ := hcs
    exact (Spoken.serveWith hX).spokenIn ⟨["Serve", "with"], [], by simp⟩ rfl
  | refrigerate =>
    simp only [Phrase.refrigerate, spells_word_iff, spells_nil_iff] at hcs
    obtain ⟨_, _, -, rfl, -, rfl⟩ := hcs
    exact Spoken.refrigerate.spokenIn List.nil_infix rfl
  | refrigerateHour | refrigerateHours =>
    simp only [Phrase.refrigerateHour, Phrase.refrigerateHours, spells_word_iff, spells_number_iff,
      spells_nil_iff] at hcs
    obtain ⟨_, _, -, rfl, _, _, -, rfl, _, n, _, _, -, rfl, -, _, _, -, rfl, -, rfl⟩ := hcs
    exact spokenIn_refrigerateFor hobj
  | loopEndOf =>
    simp only [Phrase.loopEndOf, spells_verb_iff, spells_optional_iff, spells_ingredient_iff,
      spells_word_iff, spells_verbed_iff, spells_nil_iff] at hcs
    obtain ⟨V, _, _, rfl, rfl, hV, _, rfl, h⟩ := hcs
    rcases h with ⟨X, _, _, rfl, rfl, -, _, _, rfl, rfl, K, _, _, rfl, rfl, hK, rfl, rfl⟩ |
      ⟨_, rfl, X, _, _, rfl, rfl, -, _, _, rfl, rfl, K, _, _, rfl, rfl, hK, rfl, rfl⟩
    · exact spokenIn_loopEnd (F := []) hls rfl (by simp) hV hK rfl hbefore
    · exact spokenIn_loopEnd (F := ["the"]) hls rfl (by simp) hV hK rfl hbefore
  | loopEnd =>
    simp only [Phrase.loopEnd, spells_verb_iff, spells_word_iff, spells_verbed_iff,
      spells_nil_iff] at hcs
    obtain ⟨V, _, _, rfl, rfl, hV, _, _, rfl, rfl, K, _, _, rfl, rfl, hK, rfl, rfl⟩ := hcs
    refine spokenIn_loopEnd (X := []) (F := []) hls rfl (by simp) hV hK rfl fun q hq => ?_
    exact hbefore q ((by decide : ∀ q ∈ Phrase.loopEndOf.before, q ∈ Phrase.loopEnd.before) q hq)
  | loopStart => exact spokenIn_loopStart hls hcs hbefore

end

/-! ## Writing, then reading -/

theorem Spelled.of_infix {ls ms : List Text} (h : Spelled ls) (hm : ms <:+: ls) : Spelled ms := by
  obtain ⟨front, back, rfl⟩ := hm
  exact h.of_append.1.of_append.2

/-- The sentence of a spoken instruction is scanned as its words. -/
theorem Spoken.sentenceLexemes_sentence {X : List Text} {i : Instruction} (h : Spoken X i)
    (hX : Spelled X) (hstop : [Text.fullStop] ∉ X) :
    sentenceLexemes i.sentence = i.words X := by
  have hperiod : Text.ofString "." = [Text.fullStop] := rfl
  rw [Instruction.sentence, h.wording_eq_spaced hX, hperiod,
    sentenceLexemes_spaced (h.spelled_words hX) (h.fullStop_not_mem_words hstop)]

/-- A statement that is read, written out and read again asks for the same. -/
theorem read_sentence_of_read {text : Text} {i : Instruction}
    (h : Instruction.read (Token.sentence text) = .ok (some i)) :
    ∃ j, Instruction.read (Token.sentence i.sentence) = .ok (some j) ∧ j.Agrees i := by
  obtain ⟨-, hasks⟩ := (read_eq_ok_some_iff (map_bare_sentence text)).1 ⟨i, h, rfl⟩
  have hspelled := spelled_sentenceLexemes text
  obtain ⟨X, hX, hspoken, -⟩ := spokenIn_of_asks hspelled hasks
  have hstop : [Text.fullStop] ∉ X := fun hmem => by
    have hne := List.all_eq_true.1 List.all_takeWhile _ (hX.subset hmem)
    simp at hne
  have hwords : sentenceLexemes i.sentence = i.unplaced.words X :=
    hspoken.sentenceLexemes_sentence (hspelled.of_infix hX) hstop
  refine (read_eq_ok_some_iff (map_bare_sentence i.sentence)).2 ?_
  rw [hwords]
  exact ⟨i.unplaced.words_ne_nil X, hspoken.asks⟩

/-- The end of a loop whose ingredient runs over a line and holds `until`; the
article is left out and the last word is not in lower case. -/
theorem read_sentence_of_read_untidy :
    Instruction.read (Token.sentence "Sift salt\n until soft until SIFTED. Serve") =
        .ok (some
          { action := .loopEnd, ingredient := "salt \n until soft", name := "Sift",
            keyword := "sifted", location := Location.start }) ∧
      ∃ j, Instruction.read (Token.sentence "Sift the salt \n until soft until sifted.") =
          .ok (some j) ∧
        j.Agrees
          { action := .loopEnd, ingredient := "salt \n until soft", name := "Sift",
            keyword := "sifted", location := Location.start } := by
  have hread : Instruction.read (Token.sentence "Sift salt\n until soft until SIFTED. Serve") =
      .ok (some
        { action := .loopEnd, ingredient := "salt \n until soft", name := "Sift",
          keyword := "sifted", location := Location.start }) := by
    decide +kernel
  exact ⟨hread, read_sentence_of_read hread⟩

end Cookbook
