import Cookbook.Proofs.Cooking.Blame
import Cookbook.Proofs.Cooking.Provisions
import Cookbook.Proofs.Draft.Derivations
import Cookbook.Proofs.Phrase.Spellings
import Cookbook.Proofs.Program.Consistency
import Cookbook.Proofs.Token.Munch

/-!
# Cookbook.Proofs.Program.Names

Names mean the same where they are declared and where they are used
(`names_agree`).  A name is read in three ways: an ingredient off the end of its
line, a recipe off its title, and either out of a sentence, where it ends at some
word.  Whatever words it is made of, what is read is these words with single spaces
between them.

The text of a recipe is given by its parts (`Layout.Parts`), so that line breaks and
blanks play no role: `Parts.sentences` are the sentences of a method, and the
`n`-th of them asks for the `n`-th statement of the recipe
(`exists_statement_of_sentence`).
-/

namespace Cookbook

open Text Layout

/-! ## Recipes in a book -/

namespace Layout.Parts

/-- The words of a title. -/
def titleWords (p : Parts) : List Text := p.title.dropLast.map Token.lexeme

/-- The sentences of a method: what stands in front of each period, without line
breaks. -/
def sentences (p : Parts) : List (List Token) :=
  (p.statements.filter (·.kind ≠ .lineBreak)).splitOnP (·.kind = .period)

/-- Whether a line of the ingredient list declares an ingredient by some words. -/
inductive Declares (p : Parts) : List Text → Prop where
  | intro {quantity measure name : List Token} {value : Option Int64} {kind : Ingredient.Kind}
    (hline : quantity ++ (measure ++ name) ∈ p.ingredients.splitOnP Token.isLineEnd)
    (hplain : ∀ t ∈ quantity ++ (measure ++ name), t.isBreak = false ∧ t.isStray = false)
    (hquantity : Quantity quantity (measure ++ name) value) (hmeasure : Measure measure name kind)
    (hname : name ≠ []) : Declares p (name.map Token.lexeme)

end Layout.Parts

/-- Whether a recipe of a program stands in a book in these parts. -/
structure Program.Prints (prog : Program) (book : Text) (p : Parts) (r : Recipe) : Prop where
  tokens : p.tokens <:+: Token.scan book
  draft : ∃ d, p.Yields d ∧ d.Makes r
  found : prog.find? r.name = some r

/-- Whether a statement finds its ingredient whenever it is carried out as one of a
recipe. -/
def Program.Supplies (prog : Program) (r : Recipe) (i : Instruction) : Prop :=
  ∀ limit fuel depth bowls k, ∀ m ∈ prog.moves limit fuel depth { Frame.ofRecipe r with bowls } k,
    m.statement = i → (∃ b, m.frame.ingredient i.ingredient = .ok b) ∧
      ∀ e, m.turn.outcome = .ends (.failed e) →
        ∀ place name, e.cause ≠ .lacking place (.unknownIngredient name)

/-! ## Tokens -/

theorem lexeme_ne_nil_of_mem_scan {book : Text} {t : Token} (h : t ∈ Token.scan book)
    (hbreak : t.isBreak = false) : t.lexeme ≠ [] := by
  intro hnil
  have hfinish : t.kind = .finish :=
    (kind_of_mem_scan h).trans ((Token.Kind.ofLexeme_eq_finish_iff _).2 hnil)
  rw [Token.isBreak, hfinish] at hbreak
  cases hbreak

/-! ## Sentences and lines -/

theorem mem_of_mem_splitOnP {α : Type} {q : α → Bool} {xs piece : List α} {x : α}
    (h : piece ∈ xs.splitOnP q) (hx : x ∈ piece) : x ∈ xs := by
  induction xs generalizing piece with
  | nil =>
    rw [List.splitOnP_nil, List.mem_singleton] at h
    rwa [h] at hx
  | cons y ys ih =>
    rw [List.splitOnP_cons_eq_if_modifyHead] at h
    split at h
    · rcases List.mem_cons.1 h with rfl | h
      · cases hx
      · exact List.mem_cons_of_mem y (ih h hx)
    · obtain ⟨first, pieces, hpieces⟩ := List.exists_cons_of_ne_nil (List.splitOnP_ne_nil q ys)
      rw [hpieces] at ih h
      rcases List.mem_cons.1 h with rfl | h
      · rcases List.mem_cons.1 hx with rfl | hx
        · exact List.mem_cons_self
        · exact List.mem_cons_of_mem y (ih List.mem_cons_self hx)
      · exact List.mem_cons_of_mem y (ih (List.mem_cons_of_mem first h) hx)

namespace Layout

/-- The pieces of statements between their periods. -/
theorem splitOnP_of_sentences {ts : List Token} {is : List Instruction} (h : Sentences ts is) :
    ∃ runs, ts.splitOnP (·.kind = .period) = runs ++ [[]] ∧ List.Forall₂ Statement runs is := by
  induction h with
  | nil => exact ⟨[], rfl, .nil⟩
  | @cons run rest stop i is h hstop hrest ih =>
    obtain ⟨runs, hruns, hstatements⟩ := ih
    refine ⟨run :: runs, ?_, .cons h hstatements⟩
    have hrun : ∀ t ∈ run, decide (t.kind = .period) = false := by
      simpa using fun t ht => (h.expected t ht).1
    rw [List.splitOnP_append_cons_of_forall_mem hrun stop (by simpa using hstop), hruns,
      List.cons_append]

theorem not_isLineEnd_of_line {ts : List Token} {x : Ingredient} (h : Line ts x) :
    ∀ t ∈ ts, t.isLineEnd = false := by
  intro t ht
  rw [← Bool.not_eq_true]
  intro hend
  have hbreak := h.isBreak t ht
  rw [Grammar.isBreak_of_isLineEnd hend] at hbreak
  cases hbreak

/-- The pieces of lines between their breaks. -/
theorem splitOnP_of_lines {ts : List Token} {is : List Ingredient} {blank : Token}
    (h : Lines ts is) (hblank : blank.isLineEnd) :
    ∃ ls, (ts ++ [blank]).splitOnP Token.isLineEnd = ls ++ [[]] ∧ List.Forall₂ Line ls is := by
  induction h with
  | @last ts i h =>
    refine ⟨[ts], ?_, .cons h .nil⟩
    rw [List.splitOnP_append_cons_of_forall_mem (not_isLineEnd_of_line h) blank hblank]
    rfl
  | @cons ts rest br i is h hbr hrest ih =>
    obtain ⟨ls, hls, hlines⟩ := ih
    refine ⟨ts :: ls, ?_, .cons h hlines⟩
    have hend : br.isLineEnd := by rw [Token.isLineEnd, hbr]
    rw [List.append_assoc, List.cons_append,
      List.splitOnP_append_cons_of_forall_mem (not_isLineEnd_of_line h) br hend, hls,
      List.cons_append]

/-- A line declares one ingredient. -/
theorem Line.unique {ts : List Token} {x y : Ingredient} (h : Line ts x) (h' : Line ts y) :
    x = y := by
  obtain ⟨first, others, rfl⟩ := List.exists_cons_of_ne_nil h.ne_nil
  have hx := (Ingredient.ofLine_eq_ok_iff h.isBreak).2 h
  have hy := (Ingredient.ofLine_eq_ok_iff h.isBreak).2 h'
  exact Except.ok.inj (hx.symm.trans hy)

end Layout

section

variable {prog : Program} {book : Text} {p : Parts} {d : Draft} {r : Recipe} {W ls : List Text}
  {j : Nat} {run : List Token}

theorem Layout.Parts.mem_tokens {t : Token}
    (h : t ∈ p.title ∨ t ∈ p.ingredients ∨ t ∈ p.statements) : t ∈ p.tokens := by
  simp only [tokens, contents, List.mem_append, List.mem_cons]
  tauto

/-- The tokens of a recipe are tokens of its book. -/
theorem Program.Prints.mem_scan (h : prog.Prints book p r) {t : Token}
    (ht : t ∈ p.title ∨ t ∈ p.ingredients ∨ t ∈ p.statements) : t ∈ Token.scan book :=
  h.tokens.subset (Parts.mem_tokens ht)

/-- A sentence of a method asks for the statement with its number. -/
theorem exists_statement_of_sentence (hp : p.Yields d) (hrun : p.sentences[j]? = some run)
    (hne : run ≠ []) : ∃ i, d.method[j]? = some i ∧ Statement run i := by
  obtain ⟨runs, hruns, hstatements⟩ := splitOnP_of_sentences hp.statements.sentences
  rw [Parts.sentences, hruns, List.getElem?_append] at hrun
  split at hrun
  · next hlt =>
    have hlt' : j < d.method.length := hstatements.length_eq ▸ hlt
    have hstatement := hstatements.get hlt hlt'
    rw [List.getElem?_eq_getElem hlt, Option.some.injEq] at hrun
    rw [List.get_eq_getElem, hrun] at hstatement
    exact ⟨_, List.getElem?_eq_getElem hlt', hstatement⟩
  · next hle =>
    rw [List.getElem?_singleton] at hrun
    split at hrun
    · cases hrun
      exact absurd rfl hne
    · cases hrun

/-- The tokens of a sentence are tokens of its method. -/
theorem mem_statements_of_mem_sentence {t : Token} (hrun : p.sentences[j]? = some run)
    (ht : t ∈ run) : t ∈ p.statements :=
  List.mem_of_mem_filter (mem_of_mem_splitOnP (List.mem_of_getElem? hrun) ht)

/-- What is declared has the words of its line as its name. -/
theorem exists_ingredient_of_declares (h : prog.Prints book p r) (hW : p.Declares W) :
    (∃ x ∈ r.ingredients, x.name = spaced W) ∧ W ≠ [] ∧ ∀ w ∈ W, w ≠ [] := by
  obtain ⟨d, hp, hmakes⟩ := h.draft
  rw [hmakes.ingredients]
  cases hW with
  | @intro quantity measure name value kind hpiece hplain hquantity hmeasure hname =>
    have hline : Line (quantity ++ (measure ++ name)) { name := Token.join name, value, kind } :=
      .intro hplain hquantity hmeasure hname
    have hlexeme : ∀ t ∈ name, t.lexeme ≠ [] := by
      intro t ht
      have hmem : t ∈ quantity ++ (measure ++ name) := by simp [ht]
      exact lexeme_ne_nil_of_mem_scan (h.mem_scan (.inr (.inl (mem_of_mem_splitOnP hpiece hmem))))
        (hplain t hmem).1
    refine ⟨?_, by simpa using hname, List.forall_mem_map.2 hlexeme⟩
    rw [← Token.join_eq_spaced hlexeme]
    have hingredients := hp.ingredients
    generalize p.ingredients = ts at hpiece hingredients
    generalize d.ingredients = is at hingredients
    cases hingredients with
    | missing =>
      rw [List.splitOnP_nil, List.mem_singleton] at hpiece
      exact absurd hpiece hline.ne_nil
    | here hlist =>
      cases hlist with
      | @intro heading stop br blank ts is hheading hstop hbr hlines hblank =>
        obtain ⟨pieces, hpieces, hall⟩ := splitOnP_of_lines hlines
          (show blank.isLineEnd by rw [Token.isLineEnd, hblank])
        have hsplit : (heading :: stop :: br :: (ts ++ [blank])).splitOnP Token.isLineEnd =
            [heading, stop] :: (pieces ++ [[]]) := by
          have hfront : ∀ t ∈ [heading, stop], t.isLineEnd = false := by
            simp [Token.isLineEnd, hheading, hstop]
          rw [← hpieces]
          exact List.splitOnP_append_cons_of_forall_mem hfront br (by rw [Token.isLineEnd, hbr]) _
        rw [hsplit, List.mem_cons, List.mem_append, List.mem_singleton] at hpiece
        rcases hpiece with heading | hpiece | hnil
        · -- the heading ends with a period, which no line holds
          have hstray := (hplain stop (by simp [heading])).2
          rw [Token.isStray, hstop] at hstray
          cases hstray
        · obtain ⟨x, hx, hline'⟩ := exists_mem_of_forall₂ hall hpiece
          exact ⟨x, hx, by rw [hline'.unique hline]⟩
        · exact absurd hnil hline.ne_nil

/-- A recipe has the words of its title as its name. -/
theorem name_of_prints (h : prog.Prints book p r) :
    r.name = spaced p.titleWords ∧ p.titleWords ≠ [] ∧ ∀ w ∈ p.titleWords, w ≠ [] := by
  obtain ⟨d, hp, hmakes⟩ := h.draft
  rw [hmakes.name]
  have hscan : ∀ t ∈ p.title, t ∈ Token.scan book := fun t ht => h.mem_scan (.inl ht)
  have htitle := hp.title
  unfold Parts.titleWords
  generalize p.title = ts at htitle hscan
  generalize d.title = name, d.location = place at htitle
  cases htitle with
  | @intro first stop others hwords hstop =>
    have hlexeme : ∀ t ∈ first :: others, t.lexeme ≠ [] := fun t ht =>
      lexeme_ne_nil_of_mem_scan (hscan t (List.mem_append_left [stop] ht)) (hwords t ht).1
    rw [← List.cons_append, List.dropLast_concat]
    exact ⟨Token.join_eq_spaced hlexeme, by simp, List.forall_mem_map.2 hlexeme⟩

/-- Statements that have nothing to do with loops stand in the recipe as they were
read. -/
theorem Draft.Makes.getElem?_instructions {i : Instruction} (h : d.Makes r)
    (hi : d.method[j]? = some i) (ha : ¬ Loops.IsTargeted i.action) :
    r.instructions[j]? = some i := by
  obtain ⟨method, hmethod, hinstructions⟩ := h.instructions
  have hresolved := Loops.resolved_of_resolve hmethod
  have hlt : j < method.length :=
    hresolved.length_eq ▸ (List.getElem?_eq_some_iff.1 hi).1
  have hj := List.getElem?_eq_getElem hlt
  rw [hinstructions, List.getElem?_append_left hlt, hj,
    (hresolved.unchanged j i _ hi hj).2 ha]

/-- A sentence whose words ask for an instruction is that instruction in its
recipe. -/
theorem exists_instruction_of_asks {i : Instruction} (h : prog.Prints book p r)
    (hrun : p.sentences[j]? = some run) (hls : run.map Token.lexeme = ls) (hne : ls ≠ [])
    (hasks : Asks ls i) (ha : ¬ Loops.IsTargeted i.action) :
    ∃ i', r.instructions[j]? = some i' ∧ i'.unplaced = i := by
  obtain ⟨d, hp, hmakes⟩ := h.draft
  have hbare : run.map Token.bare = ls.map Token.ofLexeme := by
    rw [← hls]
    refine Scanned.map_bare fun t ht => ?_
    exact kind_of_mem_scan (h.mem_scan (.inr (.inr (mem_statements_of_mem_sentence hrun ht))))
  obtain ⟨i', hi', hstatement⟩ := exists_statement_of_sentence hp hrun fun hnil => by
    rw [hnil] at hls
    exact hne hls.symm
  obtain ⟨i'', hread, hunplaced⟩ := (read_eq_ok_some_iff hbare).2 ⟨hne, hasks⟩
  obtain rfl : i'' = i' := by
    rw [hstatement.read] at hread
    cases hread
    rfl
  refine ⟨i'', hmakes.getElem?_instructions hi' ?_, hunplaced⟩
  rw [← hunplaced] at ha
  exact ha

/-- An ingredient that is declared is found whenever the recipe is cooked. -/
theorem supplies_of_mem {i : Instruction} (hx : ∃ x ∈ r.ingredients, x.name = i.ingredient)
    (ha : i.action ≠ .serveWith) : prog.Supplies r i := by
  intro limit fuel depth bowls k m hm hi
  obtain ⟨x, hx, hname⟩ := hx
  have hdeclared : ((Frame.declare r.ingredients).get? i.ingredient).isSome := by
    rw [get?_declare_eq, Option.isSome_map, List.find?_isSome]
    exact ⟨x, List.mem_reverse.2 hx, by simpa using hname⟩
  have hkinds := (keeps_of_reaches (reaches_of_mem_moves hm)).kinds i.ingredient
  have hsome : (m.frame.ingredients.get? i.ingredient).isSome := by
    rw [← Option.isSome_map (f := Binding.kind), hkinds, Option.isSome_map]
    exact hdeclared
  obtain ⟨b, hb⟩ := Option.isSome_iff_exists.1 hsome
  refine ⟨⟨b, by simp only [Frame.ingredient, hb]⟩, fun e he place name hcause => ?_⟩
  obtain ⟨-, -, fuel', -, hturn⟩ := made_of_mem_moves hm
  rw [hturn, hi] at he
  obtain ⟨-, hwarrants⟩ := warrants_of_failed_turn ha he
  rw [hcause] at hwarrants
  obtain ⟨-, rfl, hnone⟩ := hwarrants
  rw [hb] at hnone
  cases hnone

/-- A sentence about an ingredient that is declared is a statement that finds it. -/
theorem exists_supplied_of_asks {i : Instruction} {name : Text} (h : prog.Prints book p r)
    (hrun : p.sentences[j]? = some run) (hx : ∃ x ∈ r.ingredients, x.name = name)
    (hls : run.map Token.lexeme = ls) (hne : ls ≠ []) (hasks : Asks ls i)
    (ha : ¬ Loops.IsTargeted i.action) (hwith : i.action ≠ .serveWith)
    (hname : i.ingredient = name) (hplace : i.unplaced = i) :
    ∃ i', r.instructions[j]? = some i' ∧ i'.Agrees i ∧ prog.Supplies r i' := by
  obtain ⟨i', hget, rfl⟩ := exists_instruction_of_asks h hrun hls hne hasks ha
  refine ⟨i', hget, hplace.symm, supplies_of_mem ?_ hwith⟩
  rw [← hname] at hx
  exact hx

end

/-! ## Words of a statement -/

/-- A statement about an ingredient and a bowl asks for the same in whatever way the
bowl is written. -/
theorem asks_of_names {a : Action} {o w : Text} {W B : List Text} {n : UInt32}
    (ha : a.bowlWords? = some (o, w)) (hW : W ≠ [])
    (hadd : a = .add → W ≠ [Text.ofString "dry", "ingredients"])
    (hB : Vessel.bowl.Names (B.map Token.ofLexeme) n) :
    Asks (o :: (W ++ w :: B)) { action := a, ingredient := joined W, bowl := n } := by
  have hplain : Asks (o :: (W ++ w :: Vessel.bowl.wording n))
      { action := a, ingredient := joined W, bowl := n } := by
    have hspoken := (Spoken.working ha hW hadd hB.ne_zero).asks
    rwa [Instruction.words, Instruction.opening_of_bowlWords? ha,
      Instruction.closing_of_bowlWords? ha, List.singleton_append] at hspoken
  have hphrase : ∃ p ∈ Phrase.all,
      p.pattern = [.word o, .ingredient, .word w] ++ .vessel .bowl :: [] := by
    refine ⟨{ pattern := [.word o, .ingredient, .word w, Phrase.bowl], action := a }, ?_, rfl⟩
    cases a <;> cases ha <;> decide
  obtain ⟨p, hp, hpattern⟩ := hphrase
  have hfront : Pattern.Cuts [.word o, .ingredient, .word w] ((o :: (W ++ [w])).map Token.ofLexeme)
      [.nothing, .ingredient (W.map Token.ofLexeme), .nothing] := by
    refine Pattern.cuts_word_iff.2 ⟨_, _, _, rfl, rfl, rfl, Pattern.cuts_ingredient_iff.2
      ⟨_, [Token.ofLexeme w], _, by simp, by simpa using hW, rfl, ?_⟩⟩
    exact Pattern.cuts_word_iff.2 ⟨_, [], [], rfl, rfl, rfl, rfl, rfl⟩
  obtain ⟨q, c, -, halike⟩ :=
    Phrase.readAlike_of_mem hp hpattern hfront (Pattern.cuts_nil_iff.2 ⟨rfl, rfl⟩)
  have hfind {B : List Text} (hB : Vessel.bowl.Names (B.map Token.ofLexeme) n) :
      Phrase.find? ((o :: (W ++ w :: B)).map Token.ofLexeme) = some (q, c n) := by
    simpa using halike _ n hB hB.isPlain
  obtain ⟨q', c', hfound, hobjection, hinstruction⟩ := hplain
  rw [hfind (Vessel.bowl.names_wording hB.ne_zero)] at hfound
  cases hfound
  exact ⟨q, c n, hfind hB, hobjection, hinstruction⟩

theorem lower_spaced (W : List Text) : (spaced W).lower = spaced (W.map lower) := by
  induction W with
  | nil => rfl
  | cons w W ih =>
    by_cases hW : W = []
    · rw [hW]
      rfl
    · have hspace : lowerByte space = space := by decide
      rw [spaced_cons hW, List.map_cons, spaced_cons (by simpa using hW), ← ih, lower, lower, lower,
        List.map_append, List.map_cons, hspace]

/-- Words that are the same but for case make up names that are. -/
theorem lower_spaced_of_sameName {W W' : List Text} (h : List.Forall₂ SameName W W') :
    (spaced W).lower = (spaced W').lower := by
  have hlower : W.map lower = W'.map lower := by
    induction h with
    | nil => rfl
    | cons hw _ ih => rw [List.map_cons, List.map_cons, lower_eq_iff.2 hw, ih]
  rw [lower_spaced, lower_spaced, hlower]

/-! ## Books -/

/-- Every draft of a book stands in it in some parts. -/
theorem exists_parts_of_book {fits : Parts → List Token → Prop} {ts : List Token}
    {ds : List Draft} {d : Draft} (h : Book fits ts ds) (hd : d ∈ ds) :
    ∃ p : Parts, p.tokens <:+: ts ∧ p.Yields d := by
  have hrecipes {ts : List Token} {ds : List Draft} (h : Recipes fits ts ds) (hd : d ∈ ds) :
      ∃ p : Parts, p.tokens <:+: ts ∧ p.Yields d := by
    induction h with
    | @last p d' trail hp _ _ =>
      rw [List.mem_singleton] at hd
      subst hd
      exact ⟨p, (List.prefix_append _ _).isInfix, hp⟩
    | @cons p d' blank rest ds hp _ _ _ ih =>
      rcases List.mem_cons.1 hd with rfl | hd
      · exact ⟨p, (List.prefix_append _ _).isInfix, hp⟩
      · obtain ⟨q, hq, hyields⟩ := ih hd
        exact ⟨q, hq.trans ⟨p.tokens ++ [blank], [], by simp⟩, hyields⟩
  cases h with
  | @intro lead ts finish ds hlead hbook hfinish =>
    obtain ⟨p, hp, hyields⟩ := hrecipes hbook hd
    exact ⟨p, hp.trans ⟨lead, [finish], by simp⟩, hyields⟩

/-- Every recipe of a program that was loaded stands in its book. -/
theorem exists_prints_of_ofText {book : Text} {prog : Program}
    (h : Program.ofText book = .ok prog) {e : Text × Recipe} (he : e ∈ prog.recipes.entries) :
    ∃ p, prog.Prints book p e.2 := by
  rw [Program.ofText] at h
  cases hparse : Draft.parse book with
  | error e => simp [hparse] at h
  | ok ds =>
    simp only [hparse] at h
    cases hdrafts : Program.ofDrafts ds with
    | error e => simp [hdrafts] at h
    | ok q =>
      simp only [hdrafts, Except.ok.injEq] at h
      subst h
      have hmade := Program.madeOf_of_ofDrafts hdrafts
      obtain ⟨d, hd, -, hmakes⟩ := (hmade.recipes e.1 e.2).1 he
      obtain ⟨p, hp, hyields⟩ := exists_parts_of_book (book_of_parse hparse) hd
      refine ⟨p, hp, ⟨d, hyields, hmakes⟩, (hmade.found _ _).2 ⟨d, hd, ?_, hmakes⟩⟩
      rw [hmakes.name]
      exact lower_eq_iff.1 rfl

/-- Names mean the same where they are declared and where they are used, in every book
that is accepted.

Each recipe stands in the book in some parts.  If one of its lines declares an
ingredient by the words `W`, then a sentence of its method that takes, puts, folds,
adds, removes, combines, divides or stirs what these words name, into or from a bowl
in any spelling, is the statement of this action with the name that was declared, and
whenever it is carried out the ingredient is there.  If the title of a recipe is made
of the words `W`, then a sentence that serves with these words, whatever their case,
is a statement that has this recipe cooked.  Blanks and line breaks between the words
of a sentence mean nothing. -/
theorem names_agree {book : Text} {prog : Program} (h : Program.ofText book = .ok prog) :
    (∀ e ∈ prog.recipes.entries, ∃ p, prog.Prints book p e.2) ∧
    ∀ (p : Parts) (r : Recipe), prog.Prints book p r →
      ∀ (j : Nat) (run : List Token), p.sentences[j]? = some run →
        (∀ W, p.Declares W →
          (run.map Token.lexeme =
              Text.ofString "Take" :: (W ++ [Text.ofString "from", "the", "refrigerator"]) →
            ∃ i, r.instructions[j]? = some i ∧
              i.Agrees { action := .take, ingredient := spaced W } ∧ prog.Supplies r i) ∧
          ∀ a o w B n, a.bowlWords? = some (o, w) →
            (a = .add → W ≠ [Text.ofString "dry", "ingredients"]) →
            Vessel.bowl.Names (B.map Token.ofLexeme) n →
            run.map Token.lexeme = o :: (W ++ w :: B) →
              ∃ i, r.instructions[j]? = some i ∧
                i.Agrees { action := a, ingredient := spaced W, bowl := n } ∧
                prog.Supplies r i) ∧
        ∀ p' r' W, prog.Prints book p' r' → List.Forall₂ SameName W p'.titleWords →
          run.map Token.lexeme = Text.ofString "Serve" :: Text.ofString "with" :: W →
            ∃ i, r.instructions[j]? = some i ∧
              i.Agrees { action := .serveWith, name := spaced W } ∧
              prog.find? i.name = some r' ∧
              ∀ limit fuel depth f k, limit = 0 ∨ depth + 1 ≤ limit →
                prog.turn limit fuel depth i f k =
                  .ofCooked f (prog.cook limit fuel (depth + 1) (f.servedWith r') k) := by
  refine ⟨fun e he => exists_prints_of_ofText h he, fun p r hr j run hrun => ⟨fun W hW => ?_, ?_⟩⟩
  · obtain ⟨hx, hne, hwords⟩ := exists_ingredient_of_declares hr hW
    have hjoined := joined_eq_spaced_of_ne_nil hwords
    refine ⟨fun hls => ?_, fun a o w B n ha hadd hB hls => ?_⟩
    · have hasks := (Spoken.take hne).asks
      rw [hjoined] at hasks
      exact exists_supplied_of_asks hr hrun hx hls (by simp) hasks (by simp [Loops.IsTargeted])
        (by simp) rfl rfl
    · have hasks := asks_of_names ha hne hadd hB
      rw [hjoined] at hasks
      have haction : ¬ Loops.IsTargeted a ∧ a ≠ .serveWith := by
        cases a <;> cases ha <;> simp [Loops.IsTargeted]
      exact exists_supplied_of_asks hr hrun hx hls (by simp) hasks haction.1 haction.2 rfl rfl
  · intro p' r' W hr' hW hls
    obtain ⟨hname, hne, hwords⟩ := name_of_prints hr'
    have hlower : (spaced W).lower = r'.name.lower := by
      rw [hname]
      exact lower_spaced_of_sameName hW
    have hW' : W ≠ [] ∧ ∀ w ∈ W, w ≠ [] := by
      refine ⟨fun hnil => ?_, fun w hw hnil => ?_⟩
      · rw [hnil, List.forall₂_nil_left_iff] at hW
        exact hne hW
      · obtain ⟨w', hw', hsame⟩ := exists_mem_of_forall₂ hW hw
        rw [hnil, SameName, List.forall₂_nil_left_iff] at hsame
        exact hwords w' hw' hsame
    have hasks := (Spoken.serveWith hW'.1).asks
    rw [joined_eq_spaced_of_ne_nil hW'.2] at hasks
    obtain ⟨i, hi, hagrees⟩ := exists_instruction_of_asks hr hrun
      (hls.trans (by simp [Instruction.words, Instruction.opening, Instruction.closing]))
      (Instruction.words_ne_nil _ W) hasks (by simp [Loops.IsTargeted])
    have hagrees : i.Agrees { action := .serveWith, name := spaced W } := hagrees
    have hfind : prog.find? i.name = some r' := by
      rw [hagrees.name_eq, Program.find?, hlower]
      exact hr'.found
    exact ⟨i, hi, hagrees, hfind, fun limit fuel depth f k hlimit =>
      turn_serveWith_eq hagrees.action_eq hfind hlimit⟩

/-- A recipe with an ingredient whose name holds the word that ends it, written on two
lines where it is used, and that is served with itself in capital letters. -/
theorem names_agree_tea :
    let book : Text := "Tea.\n\nIngredients.\n1 cup tea into the cup\n\nMethod.\n" ++
      ofString "Put tea into\n  the cup into the 2nd mixing bowl. Serve with  TEA."
    ∃ (prog : Program) (r : Recipe) (i i' : Instruction), Program.ofText book = .ok prog ∧
      prog.mainRecipe? = some r ∧ r.instructions = [i, i'] ∧
      i.Agrees { action := .put, ingredient := "tea into the cup", bowl := 2 } ∧
      prog.Supplies r i ∧ prog.find? i'.name = some r := by
  intro book
  let ts := Token.scan book
  let t (k : Nat) : Token := ts.getD k { kind := .finish, lexeme := [] }
  let put : Instruction :=
    { action := .put, ingredient := "tea into the cup", bowl := 2, location := (t 16).location }
  let serve : Instruction := { action := .serveWith, name := "TEA", location := (t 28).location }
  let name := [t 8, t 9, t 10, t 11]
  let r : Recipe :=
    { name := Token.join [t 0], ingredients := [{ name := Token.join name, value := some 1 }]
      instructions := [put, serve] }
  let prog : Program := { recipes := Shelf.empty.insert r.name.lower r, main := r.name }
  let d : Draft :=
    { title := r.name, location := (t 0).location, ingredients := r.ingredients
      method := r.instructions }
  let run := [t 16, t 17, t 18, t 20, t 21, t 22, t 23, t 24, t 25, t 26]
  let run' := [t 28, t 29, t 30]
  let p : Parts :=
    { title := t 0 :: ([] ++ [t 1]), gap := t 2
      ingredients := t 3 :: t 4 :: t 5 :: ([t 6] ++ ([t 7] ++ name) ++ [t 12])
      heading := [t 13, t 14, t 15], statements := (ts.drop 16).take 16 }
  have hok {ε α : Type} (x : Except ε α) (a : α) (h : x.toOption = some a) : x = .ok a := by
    cases x with
    | error e => cases h
    | ok b => exact congrArg Except.ok (Option.some.inj h)
  have hload : Program.ofText book = .ok prog := hok _ _ (by decide +kernel)
  have hplain : ∀ u ∈ [t 6] ++ ([t 7] ++ name), u.isBreak = false ∧ u.isStray = false := by
    decide +kernel
  have hquantity : Quantity [t 6] ([t 7] ++ name) (some 1) := .number (by decide +kernel)
  have hmeasure : Measure [t 7] name .either :=
    .word (by unfold Heaps; decide +kernel) (by decide +kernel)
  have hstatement : Statement run put :=
    ⟨hok _ _ (by decide +kernel), by decide +kernel, by rintro _ ⟨⟩; decide +kernel⟩
  have hstatement' : Statement run' serve :=
    ⟨hok _ _ (by decide +kernel), by decide +kernel, by rintro _ ⟨⟩; decide +kernel⟩
  have hsentences : Sentences (p.statements.filter (·.kind ≠ .lineBreak)) [put, serve] := by
    have hfilter : p.statements.filter (·.kind ≠ .lineBreak) =
        run ++ t 27 :: (run' ++ t 31 :: []) := by decide +kernel
    rw [hfilter]
    exact .cons hstatement (by decide +kernel) (.cons hstatement' (by decide +kernel) .nil)
  have hyields : p.Yields d :=
    { title := .intro (by decide +kernel) (by decide +kernel)
      gap := by decide +kernel
      comment := .missing
      comment_eq_nil_iff :=
        ⟨fun _ => ⟨.ingredients, by decide +kernel, by decide +kernel⟩, fun _ => rfl⟩
      ingredients := .here (.intro (by decide +kernel) (by decide +kernel) (by decide +kernel)
        (.last (.intro hplain hquantity hmeasure (List.cons_ne_nil _ _))) (by decide +kernel))
      cookingTime := .missing
      oven := .missing
      heading := .intro (by decide +kernel) (by decide +kernel) (by decide +kernel)
      statements := ⟨List.cons_ne_nil _ _, hsentences⟩
      serves := .missing }
  have hprints : prog.Prints book p r :=
    ⟨⟨[], [t 32], by decide +kernel⟩,
      ⟨d, hyields, rfl, rfl, r.instructions, hok _ _ (by decide +kernel), rfl⟩, by decide +kernel⟩
  have hdeclares : p.Declares (name.map Token.lexeme) :=
    .intro (by decide +kernel) hplain hquantity hmeasure (List.cons_ne_nil _ _)
  have hnames : Vessel.bowl.Names
      ([Text.ofString "the", "2nd", "mixing", "bowl"].map Token.ofLexeme) 2 :=
    .inr ⟨_, _, rfl, rfl, _, _, rfl, rfl, .inr (.inl ⟨_, rfl, by decide⟩)⟩
  have htitle : List.Forall₂ SameName [Text.ofString "TEA"] p.titleWords := by
    have hwords : p.titleWords = [Text.ofString "Tea"] := by decide +kernel
    rw [hwords]
    exact .cons (lower_eq_iff.1 (by decide)) .nil
  obtain ⟨-, hagree⟩ := names_agree hload
  obtain ⟨i, hi, hagrees, hsupplies⟩ := ((hagree p r hprints 0 run (by decide +kernel)).1 _
    hdeclares).2 .put _ _ _ _ rfl (by simp) hnames (by decide +kernel)
  obtain ⟨i', hi', -, hfind, -⟩ := (hagree p r hprints 1 run' (by decide +kernel)).2 p r _ hprints
    htitle (by decide +kernel)
  cases hi
  cases hi'
  exact ⟨prog, r, put, serve, hload, by decide +kernel, rfl, by decide +kernel, hsupplies, hfind⟩

end Cookbook
