import Cookbook.Proofs.Draft.Sections

/-!
# Cookbook.Proofs.Draft.Derivations

A text is accepted if it is laid out as a recipe book, and the recipes are those
that it is laid out in (`parse_eq_ok_iff_book`).  A recipe is read part by part
(`recipe_of_yields`, `yields_of_recipe`): a part that is missing is not taken for
another one, because the parts behind it open otherwise (`not_opens_of_mem`).
Between two recipes the blank line and the `Serves` behind it are what decides
(`Parts.SetApart`), and a line break behind the last method belongs to the
method.
-/

namespace Cookbook

open Text Layout

namespace Layout

/-! ## Parts tell themselves by how they open -/

theorem Ingredients.opens {ts : List Token} {is : List Ingredient} (h : Ingredients ts is) :
    Opening.ingredients.Opens ts := by
  cases h with
  | intro hheading hstop => exact ⟨hheading, hstop⟩

theorem CookingTime.opens {ts : List Token} {v : Option Int64} (h : CookingTime ts v) :
    Opening.cookingTime.Opens ts := by
  cases h with
  | intro hcooking htime => exact ⟨hcooking, htime⟩

theorem Oven.opens {ts : List Token} {v : Option Int64 × Option Int64} (h : Oven ts v) :
    Opening.oven.Opens ts := by
  cases h with
  | intro hpreheat hoven => exact ⟨hpreheat, hoven⟩

theorem Heading.opens {ts : List Token} (h : Heading ts) : Opening.method.Opens ts := by
  cases h with
  | intro hheading hstop => exact ⟨hheading, hstop⟩

/-- Behind a part that may be missing, either it opens the tokens or one of the
later parts does. -/
theorem Optional.exists_opens {part : List Token → α → Prop} {absent a : α} {ts rest : List Token}
    {o : Opening} {os : List Opening} (h : Optional part absent ts a)
    (hpart : ∀ {ts a}, part ts a → o.Opens ts) (hrest : ∃ o' ∈ os, o'.Opens rest) :
    ∃ o' ∈ o :: os, o'.Opens (ts ++ rest) := by
  cases h with
  | here h => exact ⟨o, by simp, (hpart h).append rest⟩
  | missing =>
    obtain ⟨o', ho', hopens⟩ := hrest
    exact ⟨o', List.mem_cons_of_mem o ho', hopens⟩

theorem not_opens_of_mem {o : Opening} {os : List Opening} {ts : List Token} (hs : Scanned ts)
    (h : ∃ o' ∈ os, o'.Opens ts) (ho : o ∉ os) : ¬ o.Opens ts := by
  obtain ⟨o', ho', hopens⟩ := h
  rintro hopen
  exact ho (Opening.opens_unique hs hopen hopens ▸ ho')

namespace Parts

variable {p : Parts} {d : Draft}

/-- The tokens in front of the statements. -/
def front (p : Parts) : List Token :=
  p.title ++ p.gap ::
    (p.comment ++ (p.ingredients ++ (p.cookingTime ++ (p.oven ++ p.heading))))

theorem tokens_eq_front_append (p : Parts) : p.tokens = p.front ++ (p.statements ++ p.serves) := by
  simp [tokens, contents, front]

/-- Nothing behind the heading of the method changes what opens the tokens behind
the title. -/
theorem opens_heading_append_iff (h : Heading p.heading) (o : Opening) (rest : List Token) :
    o.Opens (p.comment ++ (p.ingredients ++ (p.cookingTime ++ (p.oven ++ (p.heading ++ rest))))) ↔
      o.Opens (p.comment ++ (p.ingredients ++ (p.cookingTime ++ (p.oven ++ p.heading)))) := by
  have hheading := h.opens.two_le_length
  have hlength : 2 ≤
      (p.comment ++ (p.ingredients ++ (p.cookingTime ++ (p.oven ++ p.heading)))).length := by
    simp only [List.length_append]
    omega
  simpa only [List.append_assoc] using Opening.opens_append_iff hlength

theorem opens_contents_iff (h : Heading p.heading) (o : Opening) :
    o.Opens (p.comment ++ p.contents) ↔
      o.Opens (p.comment ++ (p.ingredients ++ (p.cookingTime ++ (p.oven ++ p.heading)))) :=
  opens_heading_append_iff h o (p.statements ++ p.serves)

/-- Nothing behind a recipe changes what opens its contents. -/
theorem opens_append_iff (h : Heading p.heading) (o : Opening) (rest : List Token) :
    o.Opens (p.comment ++ (p.contents ++ rest)) ↔ o.Opens (p.comment ++ p.contents) := by
  rw [opens_contents_iff h]
  simpa only [contents, List.append_assoc] using
    opens_heading_append_iff h o (p.statements ++ (p.serves ++ rest))

/-- A recipe with a line break behind its last statement. -/
def withBreak (p : Parts) (br : Token) : Parts := { p with statements := p.statements ++ [br] }

/-- Line breaks behind the last statement mean nothing. -/
theorem Yields.withBreak (h : p.Yields d) (hserves : p.serves = []) {br : Token}
    (hbr : br.kind = .lineBreak) : (p.withBreak br).Yields d := by
  have hcontents : (p.withBreak br).contents = p.contents ++ ([br] ++ []) := by
    simp [contents, Parts.withBreak, hserves]
  refine { h with comment_eq_nil_iff := ?_, statements := ⟨h.statements.ne_nil, ?_⟩ }
  · rw [hcontents]
    simpa only [Parts.withBreak, opens_append_iff h.heading] using h.comment_eq_nil_iff
  · simpa [Parts.withBreak, hbr] using h.statements.sentences

theorem tokens_withBreak (hserves : p.serves = []) (br : Token) :
    (p.withBreak br).tokens = p.tokens ++ [br] := by
  simp [tokens, contents, withBreak, hserves]

end Parts

end Layout

namespace Grammar

open Reading

/-! ## Recipes -/

/-- Whether a recipe is read up to some tokens and not beyond them. -/
structure EndsRecipe (p : Parts) (rest : List Token) : Prop where
  paragraph : ∀ t ∈ p.statements, t.kind ≠ .blankLine
  nobody : p.serves = [] → ServesNobody rest
  diners : p.serves ≠ [] → AtBreak rest

section

variable {p : Parts} {d : Draft} {rest : List Token}

theorem EndsRecipe.endsMethod (h : EndsRecipe p rest) (hp : p.Yields d) :
    EndsMethod (p.serves ++ rest) := by
  have hserves := hp.serves
  generalize d.serves = v at hserves
  generalize hts : p.serves = ts at hserves ⊢
  cases hserves with
  | missing =>
    rcases h.nobody hts with rfl | ⟨t, rest', rfl, hk, -⟩
    · exact .inl rfl
    · exact .inr ⟨t, rest', rfl, .inl hk⟩
  | here hserves =>
    cases hserves with
    | @intro blank sv count stop n hblank hsv hcount hn hstop =>
      rcases hblank with rfl | ⟨t, rfl, ht⟩
      · exact .inr ⟨sv, _, rfl, .inr hsv⟩
      · exact .inr ⟨t, _, rfl, .inl ht⟩

theorem EndsRecipe.setApart (h : EndsRecipe p rest) : p.SetApart rest := by
  refine ⟨h.paragraph, fun hserves g t more hrest hg => ?_⟩
  rcases h.nobody hserves with rfl | ⟨_, _, rfl, -, hnext⟩
  · cases hrest
  · cases hrest
    exact hnext t rfl

/-- A blank line ends a recipe, unless `Serves` is behind it. -/
theorem endsRecipe_of_blankLine {g : Token} (h : p.SetApart (g :: rest))
    (hg : g.kind = .blankLine) : EndsRecipe p (g :: rest) := by
  refine ⟨h.paragraph, fun hserves => .inr ⟨g, rest, rfl, hg, fun u hu => ?_⟩, fun _ t ht => ?_⟩
  · obtain ⟨more, rfl⟩ := List.head?_eq_some_iff.1 hu
    exact h.nobody hserves g u more rfl hg
  · rw [List.head?_cons, Option.some.injEq] at ht
    simp [← ht, Token.isBreak, hg]

end

/-- What stands in front of the statements of a recipe. -/
def preamble : Reading Draft := do
  let (title, location) ← title
  newLineAfter .title
  let comment ← optionalComment
  let ingredients ← whenHere (atHeading .ingredients) [] ingredients
  let cookingTime ← whenHere (atWords "Cooking" "time:") none cookingTime
  let (oven, gasMark) ← whenHere (atWords "Pre-heat" "oven") (none, none) oven
  methodHeading
  return { title, location, comment, ingredients, cookingTime, oven, gasMark }

/-- A recipe is its preamble, its statements and its diners. -/
theorem recipe_eq :
    recipe = (do
      let d ← preamble
      let method ← instructions
      let serves ← serves
      return { d with method, serves }) := by
  simp only [recipe, body, preamble, method_eq, bind_assoc, pure_bind]

/-- A preamble is read where it is laid out. -/
theorem preamble_of_yields {p : Parts} {d : Draft} {s : TokenStream} (hp : p.Yields d)
    (hs : (s.push p.front).Proper) :
    preamble (s.push p.front) = .ok ({ d with method := [], serves := none }, s) := by
  -- the streams between two parts, from the last part to the first
  obtain ⟨s₆, h₆⟩ : ∃ s₆, s₆ = s.push p.heading := ⟨_, rfl⟩
  obtain ⟨s₅, h₅⟩ : ∃ s₅, s₅ = s₆.push p.oven := ⟨_, rfl⟩
  obtain ⟨s₄, h₄⟩ : ∃ s₄, s₄ = s₅.push p.cookingTime := ⟨_, rfl⟩
  obtain ⟨s₃, h₃⟩ : ∃ s₃, s₃ = s₄.push p.ingredients := ⟨_, rfl⟩
  obtain ⟨s₂, h₂⟩ : ∃ s₂, s₂ = s₃.push p.comment := ⟨_, rfl⟩
  obtain ⟨s₁, h₁⟩ : ∃ s₁, s₁ = s₂.push [p.gap] := ⟨_, rfl⟩
  have hpush : s.push p.front = s₁.push p.title := by
    simp [h₁, h₂, h₃, h₄, h₅, h₆, Parts.front]
  have hahead₃ : s₃.ahead =
      p.ingredients ++ (p.cookingTime ++ (p.oven ++ (p.heading ++ s.ahead))) := by
    simp [h₃, h₄, h₅, h₆]
  rw [hpush] at hs ⊢
  have hs₁ : s₁.Proper := hs.of_push
  have hs₂ : s₂.Proper := (h₁ ▸ hs₁).of_push
  have hs₃ : s₃.Proper := (h₂ ▸ hs₂).of_push
  have hs₄ : s₄.Proper := (h₃ ▸ hs₃).of_push
  have hs₅ : s₅.Proper := (h₄ ▸ hs₄).of_push
  have hs₆ : s₆.Proper := (h₅ ▸ hs₅).of_push
  -- what opens the tokens from each part on
  have hopens₆ : ∃ o ∈ [Opening.method], o.Opens s₆.ahead :=
    ⟨.method, by simp, h₆ ▸ hp.heading.opens.append s.ahead⟩
  have hopens₅ : ∃ o ∈ [Opening.oven, .method], o.Opens s₅.ahead :=
    h₅ ▸ hp.oven.exists_opens Oven.opens hopens₆
  have hopens₄ : ∃ o ∈ [Opening.cookingTime, .oven, .method], o.Opens s₄.ahead :=
    h₄ ▸ hp.cookingTime.exists_opens CookingTime.opens hopens₅
  have hopens₃ : p.comment = [] ↔ ∃ o : Opening, o.Opens (p.comment ++ s₃.ahead) := by
    rw [hp.comment_eq_nil_iff, hahead₃]
    refine exists_congr fun o => ?_
    rw [Parts.opens_contents_iff hp.heading, Parts.opens_heading_append_iff hp.heading]
  have hbreak : AtBreak s₁.ahead := by
    intro t ht
    have hgap : p.gap = t := by simpa [h₁] using ht
    exact hgap ▸ isBreak_of_isLineEnd hp.gap
  have htitle : title (s₁.push p.title) = .ok ((d.title, d.location), s₁) :=
    (reads_title hs).2 ⟨_, rfl, hp.title, hbreak⟩
  have hline : newLineAfter .title s₁ = .ok ((), s₂) := h₁ ▸ newLineAfter_push hp.gap
  have hcomment : optionalComment s₂ = .ok (d.comment, s₃) :=
    (reads_optionalComment hs₂).2 ⟨_, h₂, hp.comment, hopens₃⟩
  have hingredients :
      whenHere Opening.ingredients.here [] ingredients s₃ = .ok (d.ingredients, s₄) :=
    (whenHere_eq_ok_iff (ingredients_eq_ok_iff hs₃) Ingredients.opens hs₃).2
      ⟨_, h₃, hp.ingredients, fun _ => not_opens_of_mem hs₄.scanned hopens₄ (by decide)⟩
  have htime : whenHere Opening.cookingTime.here none cookingTime s₄ = .ok (d.cookingTime, s₅) :=
    (whenHere_eq_ok_iff (cookingTime_eq_ok_iff hs₄) CookingTime.opens hs₄).2
      ⟨_, h₄, hp.cookingTime, fun _ => not_opens_of_mem hs₅.scanned hopens₅ (by decide)⟩
  have hoven : whenHere Opening.oven.here (none, none) oven s₅ = .ok ((d.oven, d.gasMark), s₆) :=
    (whenHere_eq_ok_iff (oven_eq_ok_iff hs₅) Oven.opens hs₅).2
      ⟨_, h₅, hp.oven, fun _ => not_opens_of_mem hs₆.scanned hopens₆ (by decide)⟩
  have hheading : methodHeading s₆ = .ok ((), s) :=
    (reads_methodHeading hs₆).2 ⟨_, h₆, hp.heading⟩
  simp only [Opening.here] at hingredients htime hoven
  simp only [preamble, bind_def, htitle, hline, hcomment, hingredients, htime, hoven, hheading,
    pure_def]

section

variable {p : Parts} {d : Draft} {s : TokenStream}

theorem instructions_of_yields (hp : p.Yields d) (hend : EndsRecipe p s.ahead)
    (hs : (s.push (p.statements ++ p.serves)).Proper) :
    instructions (s.push (p.statements ++ p.serves)) = .ok (d.method, s.push p.serves) := by
  rw [← TokenStream.push_push] at hs ⊢
  exact (reads_instructions hs).2
    ⟨_, rfl, hp.statements, hend.paragraph, hend.endsMethod hp⟩

theorem serves_of_yields (hp : p.Yields d) (hend : EndsRecipe p s.ahead)
    (hs : (s.push p.serves).Proper) : serves (s.push p.serves) = .ok (d.serves, s) :=
  (serves_eq_ok_iff hs (hend.endsMethod hp)).2 ⟨_, rfl, hp.serves, hend.nobody, hend.diners⟩

/-- Tokens that are laid out as a recipe are read as this recipe. -/
theorem recipe_of_yields (hp : p.Yields d) (hend : EndsRecipe p s.ahead)
    (hs : (s.push p.tokens).Proper) : recipe (s.push p.tokens) = .ok (d, s) := by
  rw [p.tokens_eq_front_append, ← TokenStream.push_push] at hs ⊢
  have hs₁ := hs.of_push
  have hs₂ : (s.push p.serves).Proper := (TokenStream.push_push ▸ hs₁).of_push
  simp only [recipe_eq, bind_def, preamble_of_yields hp hs, instructions_of_yields hp hend hs₁,
    serves_of_yields hp hend hs₂, pure_def]

end

/-- The tokens that a recipe is read from are laid out as this recipe. -/
theorem yields_of_recipe {s s' : TokenStream} {d : Draft} (hs : s.Proper)
    (h : recipe s = .ok (d, s')) :
    ∃ p : Parts, s = s'.push p.tokens ∧ p.Yields d ∧ EndsRecipe p s'.ahead := by
  obtain ⟨title, r, s₁, rfl, ⟨htitle, -⟩, h₁⟩ := (reads_title.bind_eq_ok_iff hs).1 h
  have hs₁ : s₁.Proper := hs.of_push
  obtain ⟨_, _, s₂, rfl, ⟨gap, rfl, hgap⟩, h₂⟩ :=
    ((reads_newLineAfter _).bind_eq_ok_iff hs₁).1 h₁
  have hs₂ : s₂.Proper := hs₁.of_push
  obtain ⟨comment, text, s₃, rfl, ⟨hcomment, hopens⟩, h₃⟩ :=
    (reads_optionalComment.bind_eq_ok_iff hs₂).1 h₂
  have hs₃ : s₃.Proper := hs₂.of_push
  obtain ⟨is, s₄, hread₄, h₄⟩ := bind_eq_ok_iff.1 h₃
  obtain ⟨ingredients, rfl, hingredients, -⟩ := (whenHere_eq_ok_iff (o := .ingredients)
    (ingredients_eq_ok_iff hs₃) Ingredients.opens hs₃).1 hread₄
  have hs₄ : s₄.Proper := hs₃.of_push
  obtain ⟨time, s₅, hread₅, h₅⟩ := bind_eq_ok_iff.1 h₄
  obtain ⟨cookingTime, rfl, hcookingTime, -⟩ := (whenHere_eq_ok_iff (o := .cookingTime)
    (cookingTime_eq_ok_iff hs₄) CookingTime.opens hs₄).1 hread₅
  have hs₅ : s₅.Proper := hs₄.of_push
  obtain ⟨⟨degrees, mark⟩, s₆, hread₆, h₆⟩ := bind_eq_ok_iff.1 h₅
  obtain ⟨oven, rfl, hoven, -⟩ := (whenHere_eq_ok_iff (o := .oven) (oven_eq_ok_iff hs₅) Oven.opens
    hs₅).1 hread₆
  have hs₆ : s₆.Proper := hs₅.of_push
  obtain ⟨_, method, s₇, rfl, ⟨heading, statements, rfl, hheading, hstatements, hblank, hend⟩,
    h₇⟩ := (reads_method.bind_eq_ok_iff hs₆).1 h₆
  obtain ⟨v, s₈, hread₈, h₈⟩ := bind_eq_ok_iff.1 h₇
  obtain ⟨serves, rfl, hserves, hnobody, hdiners⟩ :=
    (serves_eq_ok_iff hs₆.of_push hend).1 hread₈
  cases h₈
  refine ⟨{ title, gap, comment, ingredients, cookingTime, oven, heading, statements, serves }, ?_,
    ⟨htitle, hgap, hcomment, ?_, hingredients, hcookingTime, hoven, hheading, hstatements, hserves⟩,
    ⟨hblank, hnobody, hdiners⟩⟩
  · simp [Parts.tokens, Parts.contents]
  · rw [hopens]
    refine exists_congr fun o => ?_
    rw [← Parts.opens_append_iff hheading o s'.ahead]
    simp [Parts.contents]

/-! ## Books -/

/-- Ends of lines do not meet, so a run of them is a break at most. -/
theorem gap_takeWhile {ts : List Token} (hs : Scanned ts) : Gap (ts.takeWhile Token.isLineEnd) := by
  match ts, hs with
  | [], _ => exact .none
  | [t], _ =>
    cases ht : t.isLineEnd with
    | false => simpa [ht] using Gap.none
    | true => simpa [ht] using Gap.one ht
  | t :: u :: ts, hs =>
    cases ht : t.isLineEnd with
    | false => simpa [ht] using Gap.none
    | true => simpa [ht, hs.isLineEnd_of_cons_cons ht] using Gap.one ht

/-- A gap that holds a blank line consists of it. -/
theorem eq_singleton_of_gap {ts : List Token} (h : Gap ts) (hblank : ts.any (·.kind = .blankLine)) :
    ∃ t, ts = [t] ∧ t.kind = .blankLine := by
  cases h with
  | none => simp at hblank
  | @one t ht => exact ⟨t, rfl, by simpa using hblank⟩

/-- Recipes that are read one behind the other are laid out so. -/
theorem recipes_of_moreRecipes {s s₁ : TokenStream} {d : Draft} {ds : List Draft} (hs : s.Proper)
    (hrecipe : recipe s = .ok (d, s₁)) (hmore : moreRecipes s₁ = .ok ds) :
    Recipes Parts.SetApart s.ahead (d :: ds) := by
  induction s₁ using moreRecipes_induction generalizing s d ds with
  | last s₁ hnil =>
    rw [moreRecipes_of_isLineEnd hnil] at hmore
    cases hmore
    obtain ⟨p, rfl, hp, hend⟩ := yields_of_recipe hs hrecipe
    have hgap := gap_takeWhile hs.of_push.scanned
    rw [List.takeWhile_eq_self_iff.2 (List.dropWhile_eq_nil_iff.1 hnil)] at hgap
    exact .last hp hend.setApart hgap
  | lineBreak s₁ t rest hcons hblank =>
    rw [moreRecipes_of_lineBreak hcons hblank] at hmore
    cases hmore
  | blankLine s₁ t rest hcons hblank ih =>
    rw [moreRecipes_of_blankLine hcons hblank] at hmore
    obtain ⟨d', s₃, ds', hrecipe', hmore', rfl⟩ := recipes_eq_ok_iff.1 hmore
    obtain ⟨p, rfl, hp, hend⟩ := yields_of_recipe hs hrecipe
    have hs₁ : s₁.Proper := hs.of_push
    obtain ⟨g, hg, hk⟩ := eq_singleton_of_gap (gap_takeWhile hs₁.scanned) hblank
    have hahead : s₁.ahead = g :: s₁.ahead.dropWhile Token.isLineEnd := by
      have hsplit : s₁.ahead.takeWhile Token.isLineEnd ++ s₁.ahead.dropWhile Token.isLineEnd =
        s₁.ahead := List.takeWhile_append_dropWhile
      rw [hg] at hsplit
      exact hsplit.symm
    have hs₂ := hs₁.dropWhile Token.isLineEnd
    have hset := hend.setApart
    rw [TokenStream.ahead_push, hahead]
    rw [hahead] at hset
    exact .cons hp hset hk (ih d' s₃ hrecipe' hs₂ hrecipe' hmore')

/-- A recipe begins with a word. -/
theorem exists_cons_of_yields {p : Parts} {d : Draft} (hp : p.Yields d) (rest : List Token) :
    ∃ t ts, p.tokens ++ rest = t :: ts ∧ t.isLineEnd = false := by
  have htitle := hp.title
  generalize d.title = name, d.location = location at htitle
  generalize hts : p.title = title at htitle
  cases htitle with
  | @intro first stop others hwords hstop =>
    refine ⟨first, _, by rw [Parts.tokens, hts]; rfl, ?_⟩
    have hbreak := (hwords first (by simp)).1
    cases hend : first.isLineEnd with
    | false => rfl
    | true => rw [isBreak_of_isLineEnd hend] at hbreak; cases hbreak

theorem exists_cons_of_recipes {fits : Parts → List Token → Prop} {ts : List Token}
    {ds : List Draft} (h : Recipes fits ts ds) : ∃ t ts', ts = t :: ts' ∧ t.isLineEnd = false := by
  cases h with
  | last hp _ _ => exact exists_cons_of_yields hp _
  | cons hp _ _ _ => exact exists_cons_of_yields hp _

/-- The last recipe is read, with nothing but ends of lines behind it. -/
theorem recipe_of_last {p : Parts} {d : Draft} {s : TokenStream} (hp : p.Yields d)
    (hset : p.SetApart s.ahead) (htrail : Gap s.ahead) (hs : (s.push p.tokens).Proper) :
    ∃ s₁, recipe (s.push p.tokens) = .ok (d, s₁) ∧ ∀ t ∈ s₁.ahead, t.isLineEnd := by
  generalize hahead : s.ahead = trail at hset htrail
  cases htrail with
  | none =>
    have hend : EndsRecipe p s.ahead := by
      rw [hahead]
      exact ⟨hset.paragraph, fun _ => .inl rfl, fun _ t ht => by simp at ht⟩
    exact ⟨s, recipe_of_yields hp hend hs, by simp [hahead]⟩
  | @one t ht =>
    by_cases hbr : t.kind = .lineBreak ∧ p.serves = []
    · -- the method takes the line break along
      have hsingle : s.ahead = [t] ++ [] := hahead
      obtain ⟨s, rfl, hnil⟩ := TokenStream.exists_push_of_ahead hsingle
      have hend : EndsRecipe (p.withBreak t) s.ahead := by
        rw [hnil]
        refine ⟨?_, fun _ => .inl rfl, fun _ u hu => by simp at hu⟩
        refine List.forall_mem_append.2 ⟨hset.paragraph, List.forall_mem_singleton.2 ?_⟩
        simp [hbr.1]
      have hpush : (s.push [t]).push p.tokens = s.push (p.withBreak t).tokens := by
        rw [Parts.tokens_withBreak hbr.2, TokenStream.push_push]
      rw [hpush] at hs ⊢
      exact ⟨s, recipe_of_yields (hp.withBreak hbr.2 hbr.1) hend hs, by simp [hnil]⟩
    · have hend : EndsRecipe p s.ahead := by
        rw [hahead]
        refine ⟨hset.paragraph, fun hserves => .inr ⟨t, [], rfl, ?_, by simp⟩, fun _ u hu => ?_⟩
        · have hk : t.kind ≠ .lineBreak := fun hk => hbr ⟨hk, hserves⟩
          unfold Token.isLineEnd at ht
          grind
        · have htu : t = u := by simpa using hu
          exact htu ▸ isBreak_of_isLineEnd ht
      exact ⟨s, recipe_of_yields hp hend hs, by simpa [hahead] using ht⟩

/-- Recipes that are laid out one behind the other are read so. -/
theorem recipes_of_laidOut {s : TokenStream} {ts : List Token} {ds : List Draft}
    (h : Recipes Parts.SetApart ts ds) (hs : s.Proper) (hahead : s.ahead = ts) :
    recipes s = .ok ds := by
  induction h generalizing s with
  | @last p d trail hp hset htrail =>
    obtain ⟨s, rfl, rfl⟩ := TokenStream.exists_push_of_ahead hahead
    obtain ⟨s₁, hrecipe, hends⟩ := recipe_of_last hp hset htrail hs
    have hmore : moreRecipes s₁ = .ok [] :=
      moreRecipes_of_isLineEnd (List.dropWhile_eq_nil_iff.2 hends)
    exact recipes_eq_ok_iff.2 ⟨d, s₁, [], hrecipe, hmore, rfl⟩
  | @cons p d blank rest ds hp hset hblank hrest ih =>
    obtain ⟨s, rfl, hrest'⟩ := TokenStream.exists_push_of_ahead hahead
    have hs₂ : (TokenStream.mk rest s.finish).Proper :=
      ⟨hs.of_push.scanned.of_suffix (hrest' ▸ List.suffix_cons blank rest), hs.finish⟩
    have hrecipes := ih hs₂ rfl
    obtain ⟨t, rest', rfl, ht⟩ := exists_cons_of_recipes hrest
    have hend : EndsRecipe p s.ahead := hrest' ▸ endsRecipe_of_blankLine hset hblank
    rw [← moreRecipes_of_cons hrest' hblank ht] at hrecipes
    exact recipes_eq_ok_iff.2 ⟨d, s, ds, recipe_of_yields hp hend hs, hrecipes, rfl⟩

end Grammar

/-! ## Texts -/

/-- The recipes of a text are those that its tokens are laid out in. -/
theorem book_of_parse {text : Text} {ds : List Draft} (h : Draft.parse text = .ok ds) :
    Book Parts.SetApart (Token.scan text) ds := by
  have hs := TokenStream.proper_ofText text
  rw [Draft.parse] at h
  rw [Token.scan, TokenStream.toList]
  generalize TokenStream.ofText text = s at hs h ⊢
  obtain ⟨d, s₂, ds', hrecipe, hmore, rfl⟩ := Grammar.exists_recipe_of_book h
  have hrecipes := Grammar.recipes_of_moreRecipes (hs.dropWhile _) hrecipe hmore
  have hbook := Book.intro (Grammar.gap_takeWhile hs.scanned) hrecipes hs.finish
  rwa [← List.append_assoc, List.takeWhile_append_dropWhile] at hbook

/-- A text whose tokens are laid out as a book is accepted. -/
theorem parse_of_book {text : Text} {ds : List Draft}
    (h : Book Parts.SetApart (Token.scan text) ds) : Draft.parse text = .ok ds := by
  have hs := TokenStream.proper_ofText text
  rw [Draft.parse, Grammar.book]
  rw [Token.scan, TokenStream.toList] at h
  generalize TokenStream.ofText text = s at hs h ⊢
  generalize htokens : s.ahead ++ [s.finish] = tokens at h
  cases h with
  | @intro lead ts finish ds hlead hrecipes hfinish =>
    rw [← List.append_assoc] at htokens
    obtain ⟨hahead, -⟩ := List.append_inj' htokens rfl
    obtain ⟨t, ts', rfl, ht⟩ := Grammar.exists_cons_of_recipes hrecipes
    have hdrop : s.ahead.dropWhile Token.isLineEnd = t :: ts' := by
      rw [hahead]
      cases hlead with
      | none => simp [ht]
      | one hu => simp [hu, ht]
    have hs₁ : (TokenStream.mk (t :: ts') s.finish).Proper :=
      ⟨hs.scanned.of_suffix (hdrop ▸ List.dropWhile_suffix _), hs.finish⟩
    simp only [hdrop, List.isEmpty_cons, Bool.false_eq_true, if_false]
    exact Grammar.recipes_of_laidOut hrecipes hs₁ rfl

/-- A text is accepted exactly if its tokens are laid out as a book whose
recipes can be told apart, and is then read as these recipes. -/
theorem parse_eq_ok_iff_book (text : Text) (ds : List Draft) :
    Draft.parse text = .ok ds ↔ Book Parts.SetApart (Token.scan text) ds :=
  ⟨book_of_parse, parse_of_book⟩

/-! ## Recipes that cannot be told apart -/

/-- A token at a place, with no blanks in front of it. -/
def Token.standing (lexeme : Text) (line col : Int) : Token :=
  { Token.ofLexeme lexeme with location := { line, col } }

/-- A recipe with a title of one word and a method of one statement. -/
theorem Layout.Parts.yields_short (word stop gap heading period br last : Token)
    {run : List Token} {i : Instruction} (hword : word.isBreak = false ∧ word.isStray = false)
    (hstop : stop.kind = .period) (hgap : gap.isLineEnd) (hheading : heading.kind = .method)
    (hperiod : period.kind = .period) (hbr : br.kind = .lineBreak) (hrun : Statement run i)
    (hbreaks : ∀ t ∈ run, t.kind ≠ .lineBreak) (hlast : last.kind = .period) :
    Yields
      { title := [word, stop], gap, heading := [heading, period, br], statements := run ++ [last] }
      { title := Token.join [word], location := word.location, method := [i] } where
  title := .intro (List.forall_mem_singleton.2 hword) hstop
  gap := hgap
  comment := .missing
  comment_eq_nil_iff := ⟨fun _ => ⟨.method, hheading, hperiod⟩, fun _ => rfl⟩
  ingredients := .missing
  cookingTime := .missing
  oven := .missing
  heading := .intro hheading hperiod hbr
  statements := by
    refine ⟨by simp, ?_⟩
    rw [List.filter_eq_self.2]
    · exact .cons hrun hlast .nil
    · exact List.forall_mem_append.2 ⟨fun t ht => by simp [hbreaks t ht], by simp [hlast]⟩
  serves := .missing

/-- What sets recipes apart is needed: a statement with a blank line in it, and
a title `Serves` behind a recipe that serves nobody, are laid out like any other
and refused. -/
theorem parse_refuses_unseparated :
    (∃ ds, Book (fun _ _ => True) (Token.scan "A.\n\nMethod.\nAdd\n\nx.") ds ∧
      Draft.parse "A.\n\nMethod.\nAdd\n\nx." ≠ .ok ds) ∧
    ∃ ds, Book (fun _ _ => True)
        (Token.scan "A.\n\nMethod.\nRefrigerate.\n\nServes.\n\nMethod.\nRefrigerate.") ds ∧
      Draft.parse "A.\n\nMethod.\nRefrigerate.\n\nServes.\n\nMethod.\nRefrigerate." ≠ .ok ds := by
  constructor
  · have hscan : Token.scan "A.\n\nMethod.\nAdd\n\nx." =
        [.standing "A" 1 0, .standing "." 1 1, .standing "\n\n" 1 2, .standing "Method" 3 0,
          .standing "." 3 6, .standing "\n" 3 7, .standing "Add" 4 0, .standing "\n\n" 4 3,
          .standing "x" 6 0, .standing "." 6 1, .standing "" 6 2] := by decide +kernel
    have hrefused : Draft.parse "A.\n\nMethod.\nAdd\n\nx." =
        .error ((Token.standing "Add" 4 0).error .unfinishedStatement) := by decide +kernel
    have hrun : Statement [.standing "Add" 4 0, .standing "\n\n" 4 3, .standing "x" 6 0]
        { action := .add, ingredient := "\n\n x", location := { line := 4, col := 0 } } :=
      ⟨by decide +kernel, by decide, by decide⟩
    have hyields := Parts.yields_short (.standing "A" 1 0) (.standing "." 1 1)
      (.standing "\n\n" 1 2) (.standing "Method" 3 0) (.standing "." 3 6) (.standing "\n" 3 7)
      (.standing "." 6 1)
      (by decide) rfl rfl rfl rfl rfl hrun (by decide) rfl
    have hrecipes : Recipes (fun _ _ => True) _ _ := .last hyields trivial .none
    have hfinish : (Token.standing "" 6 2).kind = .finish := rfl
    have hbook := Book.intro .none hrecipes hfinish
    exact ⟨_, by rw [hscan]; exact hbook, by simp [hrefused]⟩
  · have hscan : Token.scan "A.\n\nMethod.\nRefrigerate.\n\nServes.\n\nMethod.\nRefrigerate." =
        [.standing "A" 1 0, .standing "." 1 1, .standing "\n\n" 1 2, .standing "Method" 3 0,
          .standing "." 3 6, .standing "\n" 3 7, .standing "Refrigerate" 4 0, .standing "." 4 11,
          .standing "\n\n" 4 12, .standing "Serves" 6 0, .standing "." 6 6, .standing "\n\n" 6 7,
          .standing "Method" 8 0, .standing "." 8 6, .standing "\n" 8 7,
          .standing "Refrigerate" 9 0, .standing "." 9 11, .standing "" 9 12] := by decide +kernel
    have hrefused : Draft.parse
        "A.\n\nMethod.\nRefrigerate.\n\nServes.\n\nMethod.\nRefrigerate." =
          .error ((Token.standing "." 6 6).error .noDiners) := by decide +kernel
    have hrun (line : Int) : Statement [.standing "Refrigerate" line 0]
        { action := .refrigerate, location := { line, col := 0 } } := by
      have hk : (Token.standing "Refrigerate" line 0).kind = .word := rfl
      exact ⟨rfl, by simp [hk], by simp [hk]⟩
    have hfirst := Parts.yields_short (.standing "A" 1 0) (.standing "." 1 1) (.standing "\n\n" 1 2)
      (.standing "Method" 3 0) (.standing "." 3 6) (.standing "\n" 3 7) (.standing "." 4 11)
      (by decide) rfl rfl rfl rfl rfl (hrun 4) (by decide) rfl
    have hsecond := Parts.yields_short (.standing "Serves" 6 0) (.standing "." 6 6)
      (.standing "\n\n" 6 7) (.standing "Method" 8 0) (.standing "." 8 6) (.standing "\n" 8 7)
      (.standing "." 9 11) (by decide) rfl rfl rfl rfl rfl (hrun 9) (by decide) rfl
    have hblank : (Token.standing "\n\n" 4 12).kind = .blankLine := rfl
    have hrecipes : Recipes (fun _ _ => True) _ _ :=
      .cons hfirst trivial hblank (.last hsecond trivial .none)
    have hfinish : (Token.standing "" 9 12).kind = .finish := rfl
    have hbook := Book.intro .none hrecipes hfinish
    exact ⟨_, by rw [hscan]; exact hbook, by simp [hrefused]⟩

end Cookbook
