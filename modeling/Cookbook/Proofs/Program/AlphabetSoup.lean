import Cookbook.Proofs.Cooking.Characters
import Cookbook.Proofs.Cooking.ServingWith
import Cookbook.Proofs.Draft.Derivations
import Cookbook.Proofs.Program.RoundTrip

/-!
# Cookbook.Proofs.Program.AlphabetSoup

A recipe for every text.  Each character of the text is a liquid ingredient; the
ingredients are put into a bowl from the last to the first, and the bowl is
poured into a dish and served.

The book of a text (`AlphabetSoup.book`) is scanned as the words it is written
with (`lexemes_book`), laid out as a single recipe (`parse_book`) and, because that has no
loops and serves with no other recipe (`Cooks.action`), made into a program as it
stands.  Cooking it serves the text (`run_book`).
-/

namespace Cookbook

open Text Layout

/-! ## Lines of words -/

/-- Plain words with spaces between them are scanned as themselves in front of
anything that ends a word. -/
theorem lexemes_words_append {ws : List Text} {r : Text} (h : ∀ w ∈ ws, w.IsPlain)
    (hr : ∀ b, r.head? = some b → isWordByte b = false) :
    lexemes (spaced ws ++ r) = ws ++ lexemes r := by
  induction ws with
  | nil => rfl
  | cons w ws ih =>
    rw [List.forall_mem_cons] at h
    cases ws with
    | nil => exact lexemes_append h.1.isLexeme (Token.lexemeOf_append_of_isWordy h.1.isWordy hr)
    | cons u ws =>
      have hspace : ∀ b, (space :: (spaced (u :: ws) ++ r)).head? = some b →
          isWordByte b = false := by
        intro b hb
        rw [List.head?_cons, Option.some.injEq] at hb
        rw [← hb]
        decide
      rw [spaced_cons (by simp), List.append_assoc, List.cons_append,
        lexemes_append h.1.isLexeme (Token.lexemeOf_append_of_isWordy h.1.isWordy hspace),
        lexemes_space_cons, ih h.2, ← List.cons_append]

/-- Lines of plain words are scanned one by one. -/
theorem lexemes_wordLines {l : List (List Text)} {r : Text}
    (h : ∀ ws ∈ l, ws ≠ [] ∧ ∀ w ∈ ws, w.IsPlain) :
    lexemes (l.flatMap (fun ws => lineFeed :: spaced ws) ++ lineFeed :: r) =
      l.flatMap (fun ws => [lineFeed] :: ws) ++ lexemes (lineFeed :: r) := by
  induction l with
  | nil => rfl
  | cons ws l ih =>
    rw [List.forall_mem_cons] at h
    obtain ⟨⟨hne, hplain⟩, hl⟩ := h
    have hstop : ∀ b, (l.flatMap (fun ws => lineFeed :: spaced ws) ++ lineFeed :: r).head? =
        some b → isWordByte b = false := by
      intro b hb
      have hlf : b = lineFeed := by
        cases l with
        | nil => simpa using hb.symm
        | cons vs l => simpa using hb.symm
      rw [hlf]
      decide
    have hline : (ws :: l).flatMap (fun ws => lineFeed :: spaced ws) ++ lineFeed :: r =
        [lineFeed] ++ (spaced ws ++
          (l.flatMap (fun ws => lineFeed :: spaced ws) ++ lineFeed :: r)) := by
      simp
    rw [hline, lexemes_gap_append isGap_lineFeed hne hplain, lexemes_words_append hplain hstop,
      ih hl]
    simp

/-! ## Recipes by themselves -/

/-- Ingredients with names of their own are found as they are declared. -/
theorem Frame.get?_declare {is : List Ingredient} {i : Ingredient}
    (h : is.Pairwise fun a b => a.name ≠ b.name) (hi : i ∈ is) :
    (Frame.declare is).get? i.name = some { value := i.initial, kind := i.kind } := by
  let binding (i : Ingredient) : Text × Binding := (i.name, { value := i.initial, kind := i.kind })
  have hl : (is.map binding).Pairwise fun a b => a.1 ≠ b.1 := List.pairwise_map.2 h
  have hfind := Shelf.find?_of_mem hl (List.mem_map_of_mem (f := binding) hi)
  rw [Frame.declare, Shelf.ofList, Shelf.get?_foldl_insert hl, hfind, Option.some_or]

/-- A recipe that serves with no other is a program. -/
theorem Program.exists_ofDrafts_singleton {d : Draft} {r : Recipe} (hr : Recipe.ofDraft d = .ok r)
    (hname : r.name = d.title) (hcalls : ∀ i ∈ r.instructions, i.action ≠ .serveWith) :
    ∃ p, Program.ofDrafts [d] = .ok p ∧ p.mainRecipe? = some r := by
  let p : Program := { recipes := Shelf.empty.insert r.name.lower r, main := d.title }
  have hmissing : p.missingCall? = none := by
    refine missingCall?_eq_none_iff.2 fun e he i hi haction => ?_
    have hentry : e = (r.name.lower, r) := List.mem_singleton.1 he
    rw [hentry] at hi
    exact absurd haction (hcalls i hi)
  have hshelve : shelve .empty [d] = .ok p.recipes := by
    simp [shelve, hr, Shelf.contains, p]
  refine ⟨p, ?_, ?_⟩
  · simp only [ofDrafts, hshelve]
    have hp : ({ recipes := p.recipes, main := d.title } : Program) = p := rfl
    rw [hp, hmissing]
  · have hmain : p.main = r.name := hname.symm
    rw [mainRecipe?, find?, hmain]
    exact Shelf.get?_insert_self _ _ _

namespace AlphabetSoup

/-! ## The book of a text -/

/-- The name of the ingredient with a number. -/
def letter (n : Nat) : Text := ofString "v" ++ Decimal.ofNat n

/-- The book of a text. -/
def book (cs : List Char) : Text :=
  ofString "S.\n\nIngredients.\n" ++
    (cs.zipIdx 1).flatMap (fun (c, n) =>
      Decimal.ofNat c.toNat ++ ofString " ml " ++ letter n ++ ofString "\n") ++
    ofString "\nMethod.\n" ++
    (cs.zipIdx 1).reverse.flatMap (fun (_, n) =>
      ofString "Put " ++ letter n ++ ofString " into the mixing bowl.\n") ++
    ofString "Pour contents of the mixing bowl into the baking dish.\n\nServes 1."

example : book ['H', 'é'] = ofString
    "S.\n\nIngredients.\n72 ml v1\n233 ml v2\n\nMethod.\nPut v2 into the mixing bowl.\n" ++
      ofString "Put v1 into the mixing bowl.\nPour contents of the mixing bowl into the " ++
        ofString "baking dish.\n\nServes 1." := by
  decide +kernel

/-- The ingredient for a character. -/
def ingredient (e : Char × Nat) : Ingredient where
  name := letter e.2
  value := some (Value.ofChar e.1).number
  kind := .liquid

/-- The words that declare the ingredient for a character. -/
def declaration (e : Char × Nat) : List Text :=
  [Decimal.ofNat e.1.toNat, ofString "ml", letter e.2]

/-- The statement that puts an ingredient into the bowl. -/
def put (n : Nat) : Instruction := { action := .put, ingredient := letter n }

/-- The statement that pours the bowl into the dish. -/
def pour : Instruction := { action := .pour }

/-- The statements of a text. -/
def method (cs : List Char) : List Instruction :=
  (cs.zipIdx 1).reverse.map (fun e => put e.2) ++ [pour]

/-! ## Scanning -/

theorem letter_injective {m n : Nat} (h : letter m = letter n) : m = n := by
  have hdigits : Decimal.ofNat m = Decimal.ofNat n := List.append_cancel_left h
  have hnat := congrArg Decimal.nat? hdigits
  rw [Decimal.nat?_ofNat, Decimal.nat?_ofNat, Option.some.injEq] at hnat
  exact hnat

theorem isPlain_letter (n : Nat) : (letter n).IsPlain := by
  have hv : (ofString "v").IsWordy := by decide
  have hwordy : (letter n).IsWordy := by
    refine ⟨fun h => hv.1 (List.append_eq_nil_iff.1 h).1, ?_⟩
    exact List.forall_mem_append.2 ⟨hv.2, (Decimal.isWordy_ofNat n).2⟩
  refine Token.isPlain_of_isWord hwordy ?_ ((Token.isWord_ofLexeme_iff hwordy).2 ?_)
  · rw [letter, List.mem_append, not_or]
    exact ⟨by decide, Decimal.noNul_ofNat n⟩
  · rw [letter, List.all_append, Bool.and_eq_false_iff]
    exact .inl (by decide)

theorem ofLexeme_toNat (c : Char) :
    Token.Kind.ofLexeme (Decimal.ofNat c.toNat) = .number (Value.ofChar c).number := by
  rw [Token.Kind.ofLexeme_ofNat, ← Value.toInt_number_ofChar, Decimal.int64?_toInt,
    Option.elim_some]

theorem isPlain_declaration (e : Char × Nat) : ∀ w ∈ declaration e, w.IsPlain := by
  have hnumber : (Decimal.ofNat e.1.toNat).IsPlain :=
    ⟨Decimal.isWordy_ofNat _, Decimal.noNul_ofNat _, by simp [ofLexeme_toNat]⟩
  have hmeasure : (ofString "ml").IsPlain := by decide
  simp [declaration, hnumber, hmeasure, isPlain_letter]

theorem sayable_method (cs : List Char) : ∀ i ∈ method cs, i.Sayable := by
  have hput (n : Nat) : (put n).Sayable := by
    have hname : joined [letter n] = letter n := by simp [joined, Token.join]
    have hspoken :
        Spoken [letter n] { action := .put, ingredient := joined [letter n], bowl := 1 } :=
      .working (o := "Put") (w := "into") rfl (by simp) (by simp) (by decide)
    rw [hname] at hspoken
    exact sayable_of_spoken hspoken (List.forall_mem_singleton.2 (isPlain_letter n)) (by simp [put])
  have hpour : pour.Sayable :=
    sayable_of_spoken (.pour (by decide) (by decide)) (List.forall_mem_nil _) (by simp [pour])
  refine List.forall_mem_append.2 ⟨?_, List.forall_mem_singleton.2 hpour⟩
  exact List.forall_mem_map.2 fun e _ => hput e.2

/-- The pieces that the book of a text is written with. -/
theorem book_append (cs : List Char) (r : Text) :
    book cs ++ r =
      spaced [ofString "S"] ++ fullStop :: ([lineFeed, lineFeed] ++
        (spaced [ofString "Ingredients"] ++ fullStop ::
          (((cs.zipIdx 1).map declaration).flatMap (fun ws => lineFeed :: spaced ws) ++
            lineFeed :: lineFeed :: (spaced [ofString "Method"] ++ fullStop ::
              ((method cs).flatMap (fun i => lineFeed :: i.sentence) ++ ([lineFeed, lineFeed] ++
                (spaced [ofString "Serves", ofString "1"] ++ fullStop :: r))))))) := by
  have hdeclaration (e : Char × Nat) :
      Decimal.ofNat e.1.toNat ++ ofString " ml " ++ letter e.2 ++ ofString "\n" =
        spaced (declaration e) ++ [lineFeed] := by
    have hml : ofString " ml " = space :: (ofString "ml" ++ [space]) := by decide
    have hbreak : ofString "\n" = [lineFeed] := rfl
    simp [declaration, spaced, hml, hbreak]
  have hput (n : Nat) : ofString "Put " ++ letter n ++ ofString " into the mixing bowl.\n" =
      (put n).sentence ++ [lineFeed] := by
    have hrest : ofString " into the mixing bowl.\n" =
        ofString " into " ++ Instruction.vessel (ofString "mixing bowl") 1 ++ ofString "." ++
          [lineFeed] := by decide
    rw [hrest]
    simp [put, Instruction.sentence, Instruction.wording, Instruction.bowlPhrase]
  have hfirst : ofString "S.\n\nIngredients.\n" =
      spaced [ofString "S"] ++ fullStop :: ([lineFeed, lineFeed] ++
        (spaced [ofString "Ingredients"] ++ [fullStop, lineFeed])) := by decide
  have hheading : ofString "\nMethod.\n" =
      lineFeed :: (spaced [ofString "Method"] ++ [fullStop, lineFeed]) := by decide
  have hlast : ofString "Pour contents of the mixing bowl into the baking dish.\n\nServes 1." =
      pour.sentence ++ ([lineFeed, lineFeed] ++
        (spaced [ofString "Serves", ofString "1"] ++ [fullStop])) := by decide
  simp only [book, hdeclaration, hput, hfirst, hheading, hlast, method]
  simp only [List.append_assoc, List.cons_append, List.nil_append, flatMap_lines,
    List.flatMap_append, List.flatMap_map, List.flatMap_cons, List.flatMap_nil]

/-- The lexemes of the book of a text. -/
def page (cs : List Char) : List Text :=
  ofString "S" :: [fullStop] :: [lineFeed, lineFeed] :: ofString "Ingredients" :: [fullStop] ::
    ((cs.zipIdx 1).flatMap (fun e => [lineFeed] :: declaration e) ++
      [lineFeed, lineFeed] :: ofString "Method" :: [fullStop] ::
        ((method cs).flatMap Instruction.line ++
          [[lineFeed, lineFeed], ofString "Serves", ofString "1", [fullStop]]))

/-- The book of a text is scanned as the words it is written with. -/
theorem lexemes_book (cs : List Char) (r : Text) :
    lexemes (book cs ++ r) = page cs ++ lexemes r := by
  have htitle : ∀ w ∈ [ofString "S"], w.IsPlain := by decide
  have hingredients : ∀ w ∈ [ofString "Ingredients"], w.IsPlain := by decide
  have hmethod : ∀ w ∈ [ofString "Method"], w.IsPlain := by decide
  have hserves : ∀ w ∈ [ofString "Serves", ofString "1"], w.IsPlain := by decide
  have hlines : ∀ ws ∈ (cs.zipIdx 1).map declaration, ws ≠ [] ∧ ∀ w ∈ ws, w.IsPlain :=
    List.forall_mem_map.2 fun e _ => ⟨by simp [declaration], isPlain_declaration e⟩
  have hgap (t : Text) : lexemes (lineFeed :: lineFeed :: (spaced [ofString "Method"] ++ t)) =
      [lineFeed, lineFeed] :: lexemes (spaced [ofString "Method"] ++ t) :=
    lexemes_gap_append isGap_blankLine (by simp) hmethod
  rw [book_append, lexemes_spaced_fullStop htitle,
    lexemes_gap_append isGap_blankLine (by simp) hingredients, lexemes_spaced_fullStop hingredients,
    lexemes_wordLines hlines, hgap, lexemes_spaced_fullStop hmethod,
    lexemes_lines fun i hi => (sayable_method cs i hi).toIsWritten,
    lexemes_gap_append isGap_blankLine (by simp) hserves, lexemes_spaced_fullStop hserves]
  simp [page, List.flatMap_map]

theorem noNul_book (cs : List Char) : (0 : UInt8) ∉ book cs := by
  have hletter (n : Nat) : (0 : UInt8) ∉ letter n := (isPlain_letter n).noNul
  have hnumber (c : Char) : (0 : UInt8) ∉ Decimal.ofNat c.toNat := Decimal.noNul_ofNat _
  have hfirst : (0 : UInt8) ∉ ofString "S.\n\nIngredients.\n" := by decide
  have hmeasure : (0 : UInt8) ∉ ofString " ml " := by decide
  have hbreak : (0 : UInt8) ∉ ofString "\n" := by decide
  have hheading : (0 : UInt8) ∉ ofString "\nMethod.\n" := by decide
  have hput : (0 : UInt8) ∉ ofString "Put " := by decide
  have hbowl : (0 : UInt8) ∉ ofString " into the mixing bowl.\n" := by decide
  have hlast : (0 : UInt8) ∉
    ofString "Pour contents of the mixing bowl into the baking dish.\n\nServes 1." := by decide
  simp [book, hletter, hnumber, hfirst, hmeasure, hbreak, hheading, hput, hbowl, hlast]

/-! ## Reading -/

/-- A declaration is a line with a number, a measure and a name. -/
theorem line_of_holds {ts : List Token} {e : Char × Nat} (h : Holds ts (declaration e)) :
    Line ts (ingredient e) := by
  have hplain : ∀ t ∈ ts, t.isBreak = false ∧ t.isStray = false :=
    fun t ht => h.of_isPlain (isPlain_declaration e) ht
  obtain ⟨number, ts, rfl, hnumber, -, h⟩ := h.cons
  obtain ⟨measure, ts, rfl, -, hmeasure, h⟩ := h.cons
  obtain ⟨name, ts, rfl, -, hname, h⟩ := h.cons
  obtain rfl := h.eq_nil
  rw [ofLexeme_toNat] at hnumber
  have hheaps : ¬ Heaps measure := by
    rw [Heaps, hmeasure]
    decide
  have hml : Ingredient.Kind.ofMeasure? measure.lexeme = some .liquid := by
    rw [hmeasure]
    decide
  have hline : Line ([number] ++ ([measure] ++ [name]))
      { name := Token.join [name], value := some (Value.ofChar e.1).number, kind := .liquid } :=
    .intro hplain (.number hnumber) (.word hheaps hml) (by simp)
  have hjoin : Token.join [name] = letter e.2 := by simp [Token.join, hname]
  rwa [hjoin] at hline

/-- Declarations are lines with single line breaks between them. -/
theorem lines_of_holds {ts : List Token} {l : List (Char × Nat)} (hne : l ≠ [])
    (h : Holds ts (l.flatMap fun e => [lineFeed] :: declaration e)) :
    ∃ br us, ts = br :: us ∧ br.kind = .lineBreak ∧ Lines us (l.map ingredient) := by
  induction l generalizing ts with
  | nil => exact absurd rfl hne
  | cons e l ih =>
    rw [List.flatMap_cons, List.cons_append] at h
    obtain ⟨br, ts, rfl, hbr, -, h⟩ := h.cons
    obtain ⟨us, vs, rfl, hus, hvs⟩ := h.append
    refine ⟨br, us ++ vs, rfl, hbr, ?_⟩
    by_cases hl : l = []
    · subst hl
      obtain rfl := hvs.eq_nil
      rw [List.append_nil]
      exact .last (line_of_holds hus)
    · obtain ⟨br', vs, rfl, hbr', hlines⟩ := ih hl hvs
      exact .cons (line_of_holds hus) hbr' hlines

/-- The method of a text, with a blank line behind it, is a paragraph of
statements. -/
theorem statements_of_holds {ts rest : List Token} {blank : Token} {cs : List Char}
    (h : Holds ts ((method cs).flatMap Instruction.line)) (hblank : blank.kind = .blankLine)
    (hs : ∀ t ∈ ts ++ blank :: rest, t.kind ≠ .finish) :
    ∃ br us is, ts = br :: us ∧ br.kind = .lineBreak ∧ (∀ t ∈ us, t.kind ≠ .blankLine) ∧
      Statements us is ∧ List.Forall₂ Instruction.Agrees is (method cs) := by
  have hend : Grammar.statements (blank :: rest) [] = .ok ([], blank :: rest) :=
    Grammar.statements_of_end (.inl hblank)
  obtain ⟨is, his, hread⟩ := Grammar.statements_lines (sayable_method cs) h hend
  obtain ⟨-, ts', hts, hparagraph, hsentences⟩ := (Grammar.statements_eq_ok_iff hs).1 hread
  obtain rfl := List.append_cancel_right hts
  have hne : is ≠ [] := by
    rintro rfl
    exact absurd (List.forall₂_nil_left_iff.1 his) (by simp [method])
  obtain ⟨i, more, hmethod⟩ : ∃ i more, method cs = i :: more :=
    List.exists_cons_of_ne_nil (by simp [method])
  rw [hmethod, List.flatMap_cons, Instruction.line, List.cons_append] at h
  obtain ⟨br, us, rfl, hbr, -, -⟩ := h.cons
  have hbreak : br.kind = .lineBreak := hbr
  rw [List.forall_mem_cons] at hparagraph
  exact ⟨br, us, is, rfl, hbreak, hparagraph.2, ⟨hne, by simpa [hbreak] using hsentences⟩, his⟩

/-- Whether a draft is the recipe of a text. -/
structure Cooks (d : Draft) (cs : List Char) : Prop where
  ingredients : d.ingredients = (cs.zipIdx 1).map ingredient
  method : List.Forall₂ Instruction.Agrees d.method (method cs)
  serves : d.serves = some 1

/-- The tokens of a page are laid out as a recipe. -/
theorem yields_of_holds {ts : List Token} {cs : List Char} (hne : cs ≠ []) (h : Holds ts (page cs))
    (hs : ∀ t ∈ ts, t.kind ≠ .finish) :
    ∃ (p : Parts) (d : Draft), ts = p.tokens ∧ p.Yields d ∧ (∀ rest, p.SetApart rest) ∧
      Cooks d cs := by
  have hzip : cs.zipIdx 1 ≠ [] := by simpa using hne
  obtain ⟨word, ts, rfl, hword, hlexeme, h⟩ := h.cons
  obtain ⟨stop, ts, rfl, hstop, -, h⟩ := h.cons
  obtain ⟨gap, ts, rfl, hblank, -, h⟩ := h.cons
  obtain ⟨list, ts, rfl, hlist, -, h⟩ := h.cons
  obtain ⟨stop₁, ts, rfl, hstop₁, -, h⟩ := h.cons
  obtain ⟨_, ts, rfl, hdeclared, h₁⟩ := h.append
  obtain ⟨br₁, lines, rfl, hbr₁, hlines⟩ := lines_of_holds hzip hdeclared
  obtain ⟨blank₁, ts, rfl, hblank₁, -, h₁⟩ := h₁.cons
  obtain ⟨heading, ts, rfl, hheading, -, h₁⟩ := h₁.cons
  obtain ⟨stop₂, ts, rfl, hstop₂, -, h₁⟩ := h₁.cons
  obtain ⟨sentences, ts, rfl, hstated, h₂⟩ := h₁.append
  obtain ⟨blank₂, ts, rfl, hblank₂, -, h₂⟩ := h₂.cons
  obtain ⟨serves, ts, rfl, hserves, -, h₂⟩ := h₂.cons
  obtain ⟨count, ts, rfl, hcount, -, h₂⟩ := h₂.cons
  obtain ⟨stop₃, ts, rfl, hstop₃, -, h₂⟩ := h₂.cons
  obtain rfl := h₂.eq_nil
  have hbody : ∀ t ∈ sentences ++ blank₂ :: [serves, count, stop₃], t.kind ≠ .finish :=
    fun t ht => hs t (by grind)
  obtain ⟨br₂, run, is, rfl, hbr₂, hparagraph, hstatements, his⟩ :=
    statements_of_holds hstated hblank₂ hbody
  have hplain : word.isBreak = false ∧ word.isStray = false := by
    simp only [Token.isBreak, Token.isStray, hword]
    decide
  have hgap : gap.isLineEnd := by
    rw [Token.isLineEnd, hblank]
    rfl
  have hone : count.kind = .number 1 := hcount.trans (by decide)
  refine ⟨{ title := [word, stop], gap, heading := [heading, stop₂, br₂], statements := run
            ingredients := list :: stop₁ :: br₁ :: (lines ++ [blank₁])
            serves := [blank₂] ++ [serves, count, stop₃] },
    { title := Token.join [word], location := word.location, method := is, serves := some 1
      ingredients := (cs.zipIdx 1).map ingredient }, ?_, ?_, ?_, ⟨rfl, his, rfl⟩⟩
  · simp [Parts.tokens, Parts.contents]
  · exact
      { title := .intro (List.forall_mem_singleton.2 hplain) hstop
        gap := hgap
        comment := .missing
        comment_eq_nil_iff := ⟨fun _ => ⟨.ingredients, hlist, hstop₁⟩, fun _ => rfl⟩
        ingredients := .here (.intro hlist hstop₁ hbr₁ hlines hblank₁)
        cookingTime := .missing
        oven := .missing
        heading := .intro hheading hstop₂ hbr₂
        statements := hstatements
        serves := .here (.intro (.inr ⟨blank₂, rfl, hblank₂⟩) hserves hone (by decide) hstop₃) }
  · exact fun rest => ⟨hparagraph, fun h => by simp at h⟩

/-- The book of a text is read as a single recipe, whether or not its last line
is ended. -/
theorem parse_book {cs : List Char} (hne : cs ≠ []) (ended : Bool) :
    ∃ d, Draft.parse (book cs ++ if ended then ofString "\n" else []) = .ok [d] ∧ Cooks d cs := by
  have hnul : (0 : UInt8) ∉ book cs ++ if ended then ofString "\n" else [] := by
    rw [List.mem_append, not_or]
    exact ⟨noNul_book cs, by cases ended <;> decide⟩
  have hs := TokenStream.proper_ofText (book cs ++ if ended then ofString "\n" else [])
  have hholds := holds_ofText hnul
  rw [lexemes_book] at hholds
  obtain ⟨ts, trail, hahead, hts, htrail⟩ := hholds.append
  have hkinds := hs.kind_ne_finish
  rw [hahead, List.forall_mem_append] at hkinds
  obtain ⟨p, d, rfl, hp, hset, hd⟩ := yields_of_holds hne hts hkinds.1
  have hgap : Gap trail := by
    cases ended with
    | false =>
      rw [if_neg (by simp), lexemes_nil] at htrail
      exact htrail.eq_nil ▸ .none
    | true =>
      have hbreak : lexemes (ofString "\n") = [[lineFeed]] := lexemes_lineFeed
      rw [if_pos rfl, hbreak] at htrail
      obtain ⟨t, ts, rfl, ht, -, h⟩ := htrail.cons
      have hline : t.kind = .lineBreak := ht
      exact h.eq_nil ▸ .one (by simp [Token.isLineEnd, hline])
  refine ⟨d, parse_of_book ?_, hd⟩
  rw [Token.scan, TokenStream.toList, hahead]
  exact .intro .none (.last hp (hset trail) hgap) hs.finish

/-! ## Cooking -/

/-- Statements that agree with those that put some values put these values. -/
theorem forall₂_puts {ingredients : Shelf Text Binding} {l : List α} {f : α → Instruction}
    {v : α → Value} {js : List Instruction} (hjs : List.Forall₂ Instruction.Agrees js (l.map f))
    (hl : ∀ a ∈ l, (f a).Puts ingredients (v a)) :
    List.Forall₂ (Instruction.Puts ingredients) js (l.map v) := by
  induction l generalizing js with
  | nil => exact List.forall₂_nil_right_iff.1 hjs ▸ .nil
  | cons a l ih =>
    rw [List.forall_mem_cons] at hl
    obtain ⟨hput, hl⟩ := hl
    obtain ⟨j, js, hj, htail, rfl⟩ := List.forall₂_cons_right_iff.1 hjs
    refine .cons ⟨?_, ?_, ?_⟩ (ih htail hl)
    · rw [hj.action_eq, hput.action]
    · rw [hj.bowl_eq, hput.bowl]
    · rw [hj.ingredient_eq, hput.value]

section

variable {cs : List Char} {d : Draft}

/-- A recipe of a text has neither loops nor recipes to serve with. -/
theorem Cooks.action (h : Cooks d cs) {i : Instruction} (hi : i ∈ d.method) :
    i.action = .put ∨ i.action = .pour := by
  obtain ⟨j, hj, hagrees⟩ := exists_mem_of_forall₂ h.method hi
  rw [hagrees.action_eq]
  rcases List.mem_append.1 hj with hput | hpour
  · obtain ⟨e, -, rfl⟩ := List.mem_map.1 hput
    exact .inl rfl
  · rw [List.mem_singleton.1 hpour]
    exact .inr rfl

theorem Cooks.ofDraft (h : Cooks d cs) : Recipe.ofDraft d = .ok d.unpaired := by
  have hplain : ∀ i ∈ d.method, ¬ Loops.IsTargeted i.action := by
    intro i hi
    rcases h.action hi with ha | ha <;> simp [Loops.IsTargeted, ha]
  rw [Recipe.ofDraft, Block.resolve_of_plain hplain]
  rfl

/-- Every ingredient holds its character. -/
theorem get?_declare {e : Char × Nat} (h : e ∈ cs.zipIdx 1) :
    (Frame.declare ((cs.zipIdx 1).map ingredient)).get? (letter e.2) =
      some { value := Value.ofChar e.1, kind := .liquid } := by
  have hnumbers : ((cs.zipIdx 1).map Prod.snd).Nodup := by
    rw [List.zipIdx_map_snd]
    exact List.nodup_range'
  have hnames : ((cs.zipIdx 1).map ingredient).Pairwise fun a b => a.name ≠ b.name := by
    rw [List.Nodup, List.pairwise_map] at hnumbers
    exact List.pairwise_map.2 (hnumbers.imp fun hne heq => hne (letter_injective heq))
  exact Frame.get?_declare hnames (List.mem_map_of_mem h)

/-- A recipe of a text puts its characters into the bowl from the last to the
first, and then pours them into the dish. -/
theorem Cooks.exists_puts (h : Cooks d cs) :
    ∃ puts pour, d.method = puts ++ [pour] ∧ pour.Agrees AlphabetSoup.pour ∧
      List.Forall₂ (Instruction.Puts (Frame.declare d.ingredients)) puts
        (cs.map Value.ofChar).reverse := by
  have hvalues : (cs.map Value.ofChar).reverse =
      (cs.zipIdx 1).reverse.map (fun e => Value.ofChar e.1) := by
    rw [List.map_reverse, ← Function.comp_def, ← List.map_map, List.zipIdx_map_fst]
  have hputs : ∀ e ∈ (cs.zipIdx 1).reverse,
      (put e.2).Puts (Frame.declare d.ingredients) (Value.ofChar e.1) := by
    intro e he
    refine ⟨rfl, rfl, ?_⟩
    rw [h.ingredients, put, get?_declare (List.mem_reverse.1 he), Option.map_some]
  have hfirst := List.forall₂_take_append _ _ _ h.method
  have hlast := List.forall₂_drop_append _ _ _ h.method
  obtain ⟨pour, rest, hpour, hnil, hdrop⟩ := List.forall₂_cons_right_iff.1 hlast
  rw [List.forall₂_nil_right_iff.1 hnil] at hdrop
  refine ⟨_, pour, ?_, hpour, hvalues ▸ forall₂_puts hfirst hputs⟩
  rw [← hdrop, List.take_append_drop]

end

/-- The book of every text is loaded, and cooking it serves the text. -/
theorem run_book (c : Char) (cs : List Char) (ended : Bool) :
    ∃ p, Program.ofText (book (c :: cs) ++ if ended then ofString "\n" else []) = .ok p ∧
      ∀ (limit : UInt32) (fuel : Nat) (k : Kitchen),
        p.run limit (fuel + 3 + (c :: cs).length) k =
          (.done, { k with served := k.served ++ ofString (String.ofList (c :: cs)) }) := by
  obtain ⟨d, hparse, hd⟩ := parse_book (List.cons_ne_nil c cs) ended
  obtain ⟨puts, pour, hmethod, hpour, hputs⟩ := hd.exists_puts
  have hserving : d.serving = [{ action := .serve, count := some 1 }] := by
    rw [Draft.serving, hd.serves]
  have hcalls : ∀ i ∈ d.unpaired.instructions, i.action ≠ .serveWith := by
    refine List.forall_mem_append.2 ⟨fun i hi => ?_, ?_⟩
    · rcases hd.action hi with ha | ha <;> simp [ha]
    · rw [hserving]
      simp
  obtain ⟨p, hp, hmain⟩ := Program.exists_ofDrafts_singleton hd.ofDraft rfl hcalls
  refine ⟨p, by simp only [Program.ofText, hparse, hp], fun limit fuel k => ?_⟩
  have hinstructions : d.unpaired.instructions =
      puts ++ [pour, { action := .serve, count := some 1 }] := by
    simp [Draft.unpaired, hmethod, hserving]
  have hlength : puts.length = (c :: cs).length := by simpa using hputs.length_eq
  rw [← hlength]
  exact run_text hmain hinstructions hputs ⟨hpour.action_eq, hpour.bowl_eq, hpour.dish_eq⟩
    ⟨rfl, rfl⟩

end AlphabetSoup

end Cookbook
