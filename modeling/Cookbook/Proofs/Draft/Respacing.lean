import Cookbook.Proofs.Draft.Derivations
import Cookbook.Proofs.Draft.Likeness

/-!
# Cookbook.Proofs.Draft.Respacing

How a book is spaced does not matter (`parse_of_relaid`).  A text with the same
tokens holds the same recipes, whatever blanks stand between them and however
its blank lines are spelled, and line breaks may be put into methods and taken
out of them.

`Grammar.Relaid` says which texts are meant.  It follows the reading of a book:
what reading takes off the tokens for each recipe is cut where the statements
begin and where the method ends (`Grammar.Takes`), and only line breaks between
these cuts may differ.  A recipe that is read from some tokens is laid out in
them, so it is laid out alike in the other ones (`Layout.Parts.Alike.yields`), and is
read from these (`Grammar.Takes.recipe_relaid`).
-/

namespace Cookbook

open Text Layout

/-! ## What tokens show -/

/-- The kind of a token, and its lexeme unless it ends a line. -/
def Token.face (t : Token) : Token.Kind × Text :=
  (t.kind, if t.isLineEnd then [] else t.lexeme)

/-- An end of a line is spelled with a line feed. -/
theorem lineFeed_mem_of_isLineEnd {t : Token} (hk : t.kind = Token.Kind.ofLexeme t.lexeme)
    (h : t.isLineEnd) : lineFeed ∈ t.lexeme := by
  cases hl : t.lexeme with
  | nil => simp [Token.isLineEnd, hk, hl, Token.Kind.ofLexeme] at h
  | cons b rest =>
    by_cases hb : b = lineFeed
    · simp [hb]
    · simp only [Token.isLineEnd, hk, hl, Token.Kind.ofLexeme, hb, if_false,
        Token.Kind.ofDigits, Token.Kind.ofWord] at h
      grind

theorem Token.alike_of_face {t u : Token} (ht : t.kind = Token.Kind.ofLexeme t.lexeme)
    (hu : u.kind = Token.Kind.ofLexeme u.lexeme) (h : u.face = t.face) : u.Alike t := by
  obtain ⟨hkind, hlexeme⟩ := Prod.mk.injEq .. ▸ h
  have hends : u.isLineEnd = t.isLineEnd := by simp only [Token.isLineEnd, hkind]
  refine ⟨hkind, ?_⟩
  cases hend : t.isLineEnd with
  | true =>
    exact .inr ⟨rfl, lineFeed_mem_of_isLineEnd hu (hends.trans hend),
      lineFeed_mem_of_isLineEnd ht hend⟩
  | false =>
    rw [hends, hend] at hlexeme
    exact .inl hlexeme

theorem alike_of_map_face {ts us : List Token}
    (hts : ∀ t ∈ ts, t.kind = Token.Kind.ofLexeme t.lexeme)
    (hus : ∀ u ∈ us, u.kind = Token.Kind.ofLexeme u.lexeme)
    (h : us.map Token.face = ts.map Token.face) : List.Forall₂ Token.Alike us ts := by
  induction ts generalizing us with
  | nil => rw [List.map_eq_nil_iff.1 h]; exact .nil
  | cons t ts ih =>
    obtain ⟨u, us, rfl, hface, hrest⟩ := List.map_eq_cons_iff.1 h
    rw [List.forall_mem_cons] at hts hus
    exact .cons (Token.alike_of_face hts.1 hus.1 hface) (ih hts.2 hus.2 hrest)

theorem map_kind_of_map_face {ts us : List Token} (h : us.map Token.face = ts.map Token.face) :
    us.map (·.kind) = ts.map (·.kind) := by
  have hfst := congrArg (List.map Prod.fst) h
  simpa only [List.map_map, Function.comp_def, Token.face] using hfst

/-! ## Recipes that are laid out alike -/

/-- A recipe without its comment and the places where it is written. -/
def Draft.substance (d : Draft) : Draft :=
  { d with location := {}, comment := [], method := d.method.map Instruction.unplaced }

namespace Layout.Parts

variable {p q : Parts} {d : Draft}

/-- Whether the parts of two recipes are alike, but for line breaks among their
statements. -/
structure Alike (q p : Parts) : Prop where
  title : List.Forall₂ Token.Alike q.title p.title
  gap : q.gap.Alike p.gap
  comment : List.Forall₂ Token.Alike q.comment p.comment
  ingredients : List.Forall₂ Token.Alike q.ingredients p.ingredients
  cookingTime : List.Forall₂ Token.Alike q.cookingTime p.cookingTime
  oven : List.Forall₂ Token.Alike q.oven p.oven
  heading : List.Forall₂ Token.Alike q.heading p.heading
  statements : List.Forall₂ Token.Alike (q.statements.filter (·.kind ≠ .lineBreak))
    (p.statements.filter (·.kind ≠ .lineBreak))
  serves : List.Forall₂ Token.Alike q.serves p.serves

/-- Tokens that are alike fall into parts that are alike. -/
theorem exists_alike {front inside behind : List Token}
    (hfront : List.Forall₂ Token.Alike front p.front)
    (hinside : List.Forall₂ Token.Alike (inside.filter (·.kind ≠ .lineBreak))
      (p.statements.filter (·.kind ≠ .lineBreak)))
    (hbehind : List.Forall₂ Token.Alike behind p.serves) :
    ∃ q : Parts, q.Alike p ∧ q.tokens = front ++ (inside ++ behind) := by
  obtain ⟨title, _, rfl, htitle, hback⟩ := exists_append_of_forall₂ hfront
  obtain ⟨gap, _, hgap, hbody, rfl⟩ := List.forall₂_cons_right_iff.1 hback
  obtain ⟨comment, _, rfl, hcomment, hback⟩ := exists_append_of_forall₂ hbody
  obtain ⟨ingredients, _, rfl, hingredients, hback⟩ := exists_append_of_forall₂ hback
  obtain ⟨cookingTime, _, rfl, hcookingTime, hback⟩ := exists_append_of_forall₂ hback
  obtain ⟨oven, heading, rfl, hoven, hheading⟩ := exists_append_of_forall₂ hback
  refine ⟨⟨title, gap, comment, ingredients, cookingTime, oven, heading, inside, behind⟩,
    ⟨htitle, hgap, hcomment, hingredients, hcookingTime, hoven, hheading, hinside, hbehind⟩, ?_⟩
  rw [tokens_eq_front_append, front]

/-- Parts that are alike make up recipes that differ in what the title and the
statements tell of their places, and in their comments. -/
theorem Alike.yields_of {location : Location} {method : List Instruction} (h : q.Alike p)
    (hp : p.Yields d) (htitle : Title q.title d.title location)
    (hstatements : Statements q.statements method) :
    ∃ comment, q.Yields { d with location, comment, method } := by
  obtain ⟨comment, hcomment⟩ : ∃ comment, Optional Comment [] q.comment comment := by
    have hsame := h.comment
    have hcomment := hp.comment
    generalize d.comment = text, p.comment = ts at hsame hcomment
    cases hcomment with
    | here hcomment =>
      obtain ⟨text', htext'⟩ := hcomment.alike hsame
      exact ⟨text', .here htext'⟩
    | missing => exact ⟨[], List.forall₂_nil_right_iff.1 hsame ▸ .missing⟩
  have hheading := hp.heading.alike h.heading
  have hopens (o : Opening) :
      o.Opens (q.comment ++ q.contents) ↔ o.Opens (p.comment ++ p.contents) := by
    rw [opens_contents_iff hheading, opens_contents_iff hp.heading]
    refine o.opens_alike_iff ?_
    exact List.rel_append h.comment (List.rel_append h.ingredients
      (List.rel_append h.cookingTime (List.rel_append h.oven h.heading)))
  have hnil : q.comment = [] ↔ p.comment = [] := by
    rw [← List.length_eq_zero_iff, h.comment.length_eq, List.length_eq_zero_iff]
  refine ⟨comment, htitle, h.gap.isLineEnd_eq.trans hp.gap, hcomment, ?_,
    hp.ingredients.alike h.ingredients Ingredients.alike,
    hp.cookingTime.alike h.cookingTime CookingTime.alike, hp.oven.alike h.oven Oven.alike,
    hheading, hstatements, hp.serves.alike h.serves Serves.alike⟩
  simp only [hnil, hopens, hp.comment_eq_nil_iff]

/-- Parts that are alike make up recipes that differ in their places and
comments only. -/
theorem Alike.yields (h : q.Alike p) (hp : p.Yields d)
    (hparagraph : ∀ t ∈ p.statements, t.kind ≠ .blankLine) :
    ∃ d', q.Yields d' ∧ d'.substance = d.substance := by
  obtain ⟨location, htitle⟩ := hp.title.alike h.title
  obtain ⟨method, hstatements, hmethod⟩ := hp.statements.alike h.statements hparagraph
  obtain ⟨comment, hq⟩ := h.yields_of hp htitle hstatements
  refine ⟨_, hq, ?_⟩
  simp only [Draft.substance, hmethod]

end Layout.Parts

namespace Grammar

open Reading

variable {p q : Parts} {rest rest' : List Token}

theorem servesNobody_of_kinds (h : ServesNobody rest)
    (hkinds : (rest'.map (·.kind)).take 2 = (rest.map (·.kind)).take 2) : ServesNobody rest' := by
  rcases h with rfl | ⟨t, rest, rfl, ht, hnext⟩
  · rcases rest' with _ | ⟨t', rest'⟩
    · exact .inl rfl
    · simp at hkinds
  · rcases rest' with _ | ⟨t', rest'⟩
    · simp at hkinds
    · simp only [List.map_cons, List.take_succ_cons, List.cons.injEq] at hkinds
      refine .inr ⟨t', rest', rfl, hkinds.1.trans ht, fun u' hu' => ?_⟩
      rcases rest with _ | ⟨u, rest⟩
      · obtain ⟨_, rfl⟩ := List.head?_eq_some_iff.1 hu'
        simp at hkinds
      · obtain ⟨_, rfl⟩ := List.head?_eq_some_iff.1 hu'
        simp only [List.map_cons, List.take_succ_cons, List.cons.injEq] at hkinds
        rw [hkinds.2.1]
        exact hnext u rfl

theorem atBreak_of_kinds (h : AtBreak rest)
    (hkinds : (rest'.map (·.kind)).take 2 = (rest.map (·.kind)).take 2) : AtBreak rest' := by
  intro t' ht'
  obtain ⟨rest', rfl⟩ := List.head?_eq_some_iff.1 ht'
  rcases rest with _ | ⟨t, rest⟩
  · simp at hkinds
  · simp only [List.map_cons, List.take_succ_cons, List.cons.injEq] at hkinds
    have hbreak := h t rfl
    rwa [Token.isBreak, ← hkinds.1] at hbreak

/-- Where a recipe ends is told by the kinds of the two tokens behind it. -/
theorem EndsRecipe.alike (h : EndsRecipe p rest) (hlike : q.Alike p)
    (hkinds : (rest'.map (·.kind)).take 2 = (rest.map (·.kind)).take 2) : EndsRecipe q rest' := by
  have hserves : q.serves = [] ↔ p.serves = [] := by
    rw [← List.length_eq_zero_iff, hlike.serves.length_eq, List.length_eq_zero_iff]
  refine ⟨fun t ht => ?_, fun hnil => servesNobody_of_kinds (h.nobody (hserves.1 hnil)) hkinds,
    fun hne => atBreak_of_kinds (h.diners (mt hserves.2 hne)) hkinds⟩
  -- a blank line would be among the tokens that are compared
  by_cases hk : t.kind = .lineBreak
  · simp [hk]
  · have hall : ∀ u ∈ q.statements.filter (·.kind ≠ .lineBreak), u.kind ≠ .blankLine := by
      refine forall_mem_of_alike (fun hut hu => ?_) hlike.statements fun u hu =>
        h.paragraph u (List.mem_of_mem_filter hu)
      rwa [hut.kind]
    exact hall t (List.mem_filter.2 ⟨ht, by simpa using hk⟩)

/-! ## Other spacings of a book -/

/-- The tokens that reading a recipe takes off a stream: those up to the line
break behind the heading of its method, those up to the end of its method, and
its diners. -/
structure Takes (s : TokenStream) (front inside behind : List Token) : Prop where
  front : ∃ d, preamble (s.push (front ++ (inside ++ behind))) = .ok (d, s.push (inside ++ behind))
  inside : ∃ is, instructions (s.push (inside ++ behind)) = .ok (is, s.push behind)
  behind : ∃ n, serves (s.push behind) = .ok (n, s)

/-- Whether some tokens are those of a stream with another spacing: the same to
look at, but for line breaks inside the methods of the recipes that are read. -/
inductive Relaid : TokenStream → List Token → Prop where
  | finish {s : TokenStream} {us : List Token} (hends : ∀ t ∈ s.ahead, t.isLineEnd)
    (hus : us.map Token.face = s.ahead.map Token.face) : Relaid s us
  | recipe {s : TokenStream} {gap front inside behind gap' front' inside' behind' us : List Token}
    (hends : ∀ t ∈ gap, t.isLineEnd) (htakes : Takes s front inside behind)
    (hgap : gap'.map Token.face = gap.map Token.face)
    (hfront : front'.map Token.face = front.map Token.face)
    (hinside : (inside'.filter (·.kind ≠ .lineBreak)).map Token.face =
      (inside.filter (·.kind ≠ .lineBreak)).map Token.face)
    (hbehind : behind'.map Token.face = behind.map Token.face) (hrest : Relaid s us) :
    Relaid (s.push (gap ++ (front ++ (inside ++ behind))))
      (gap' ++ (front' ++ (inside' ++ (behind' ++ us))))

section

variable {s s' : TokenStream} {d : Draft} {front inside behind : List Token}

/-- The parts of a recipe are what reading it takes. -/
theorem takes_of_yields (hp : p.Yields d) (hend : EndsRecipe p s.ahead)
    (hs : (s.push p.tokens).Proper) : Takes s p.front p.statements p.serves := by
  rw [p.tokens_eq_front_append, ← TokenStream.push_push] at hs
  have hs₁ := hs.of_push
  have hs₂ : (s.push p.serves).Proper := (TokenStream.push_push ▸ hs₁).of_push
  have hfront := preamble_of_yields hp hs
  rw [TokenStream.push_push] at hfront
  exact ⟨⟨_, hfront⟩, ⟨_, instructions_of_yields hp hend hs₁⟩, ⟨_, serves_of_yields hp hend hs₂⟩⟩

theorem Takes.exists_recipe (h : Takes s front inside behind) :
    ∃ d, recipe (s.push (front ++ (inside ++ behind))) = .ok (d, s) := by
  obtain ⟨d, hfront⟩ := h.front
  obtain ⟨is, hinside⟩ := h.inside
  obtain ⟨n, hbehind⟩ := h.behind
  refine ⟨{ d with method := is, serves := n }, ?_⟩
  simp only [recipe_eq, bind_def, hfront, hinside, hbehind, pure_def]

/-- What reading a recipe takes is laid out in its parts. -/
theorem Takes.exists_yields (h : Takes s front inside behind)
    (hs : (s.push (front ++ (inside ++ behind))).Proper)
    (hd : recipe (s.push (front ++ (inside ++ behind))) = .ok (d, s)) :
    ∃ p : Parts, p.Yields d ∧ EndsRecipe p s.ahead ∧ p.front = front ∧ p.statements = inside ∧
      p.serves = behind := by
  obtain ⟨p, hpush, hp, hend⟩ := yields_of_recipe hs hd
  have htakes := takes_of_yields hp hend (hpush ▸ hs)
  obtain ⟨_, hfront⟩ := h.front
  obtain ⟨_, hfront'⟩ := htakes.front
  obtain ⟨_, hinside⟩ := h.inside
  obtain ⟨_, hinside'⟩ := htakes.inside
  -- reading stops at the same places both times
  rw [← p.tokens_eq_front_append, ← hpush, hfront, Except.ok.injEq, Prod.mk.injEq] at hfront'
  rw [← hfront'.2, hinside, Except.ok.injEq, Prod.mk.injEq] at hinside'
  have hserves := TokenStream.push_inj hinside'.2
  have hback := TokenStream.push_inj hfront'.2
  have htokens := TokenStream.push_inj hpush
  rw [p.tokens_eq_front_append, ← hback] at htokens
  rw [← hserves] at hback
  exact ⟨p, hp, hend, (List.append_cancel_right htokens).symm,
    (List.append_cancel_right hback).symm, hserves.symm⟩

/-- Two spacings begin with the same two kinds: those of the title of a recipe and of
the gap in front of it, if there is one. -/
theorem Relaid.take_two_kinds {us : List Token} (h : Relaid s us) (hs : s.Proper) :
    (us.map (·.kind)).take 2 = (s.ahead.map (·.kind)).take 2 := by
  cases h with
  | finish hends hface => rw [map_kind_of_map_face hface]
  | @recipe s gap front inside behind gap' front' inside' behind' us hends htakes hgap hfront =>
    have hlength : 2 ≤ (gap.map (·.kind) ++ front.map (·.kind)).length := by
      obtain ⟨d, hd⟩ := htakes.exists_recipe
      rw [← TokenStream.push_push] at hs
      obtain ⟨p, hp, -, rfl, -⟩ := htakes.exists_yields hs.of_push hd
      have hheading := hp.heading.opens.two_le_length
      simp only [List.length_map, List.length_append, Parts.front, List.length_cons]
      omega
    simp only [TokenStream.ahead_push, List.map_append, map_kind_of_map_face hgap,
      map_kind_of_map_face hfront, ← List.append_assoc]
    simp only [List.append_assoc (_ ++ _), List.take_append_of_le_length hlength]

/-- A recipe is read from tokens that look like it. -/
theorem Takes.recipe_relaid {front' inside' behind' : List Token}
    (h : Takes s front inside behind) (hs : (s.push (front ++ (inside ++ behind))).Proper)
    (hs' : (s'.push (front' ++ (inside' ++ behind'))).Proper)
    (hd : recipe (s.push (front ++ (inside ++ behind))) = .ok (d, s))
    (hfront : front'.map Token.face = front.map Token.face)
    (hinside : (inside'.filter (·.kind ≠ .lineBreak)).map Token.face =
      (inside.filter (·.kind ≠ .lineBreak)).map Token.face)
    (hbehind : behind'.map Token.face = behind.map Token.face) (hrest : Relaid s s'.ahead) :
    ∃ d', recipe (s'.push (front' ++ (inside' ++ behind'))) = .ok (d', s') ∧
      d'.substance = d.substance := by
  obtain ⟨p, hp, hend, rfl, rfl, rfl⟩ := h.exists_yields hs hd
  have hscanned := hs.scanned.kind
  have hscanned' := hs'.scanned.kind
  simp only [TokenStream.ahead_push, List.forall_mem_append] at hscanned hscanned'
  obtain ⟨q, hlike, htokens⟩ := Parts.exists_alike
    (alike_of_map_face hscanned.1.1 hscanned'.1.1 hfront)
    (alike_of_map_face (fun t ht => hscanned.1.2.1 t (List.mem_of_mem_filter ht))
      (fun t ht => hscanned'.1.2.1 t (List.mem_of_mem_filter ht)) hinside)
    (alike_of_map_face hscanned.1.2.2 hscanned'.1.2.2 hbehind)
  obtain ⟨d', hq, hsubstance⟩ := hlike.yields hp hend.paragraph
  rw [← htokens] at hs' ⊢
  have hend' := hend.alike hlike (hrest.take_two_kinds hs.of_push)
  exact ⟨d', recipe_of_yields hq hend' hs', hsubstance⟩

/-! ## Books -/

/-- What a recipe is read from begins with a word. -/
theorem exists_cons_of_recipe (hs : s.Proper) (h : recipe s = .ok (d, s')) :
    ∃ t ts, s.ahead = t :: ts ∧ t.isLineEnd = false := by
  obtain ⟨p, rfl, hp, -⟩ := yields_of_recipe hs h
  exact exists_cons_of_yields hp s'.ahead

section

variable {gap ts : List Token} {t : Token}

/-- Ends of lines in front of a word are skipped. -/
theorem skip_gap (hahead : s.ahead = t :: ts) (ht : t.isLineEnd = false)
    (hends : ∀ t ∈ gap, t.isLineEnd) :
    (s.push gap).ahead.takeWhile Token.isLineEnd = gap ∧
      (s.push gap).ahead.dropWhile Token.isLineEnd = s.ahead := by
  rw [TokenStream.ahead_push, hahead, List.takeWhile_append_of_pos hends,
    List.dropWhile_append_of_pos hends]
  simp [ht]

theorem moreRecipes_push (hahead : s.ahead = t :: ts) (ht : t.isLineEnd = false)
    (hends : ∀ t ∈ gap, t.isLineEnd) (hblank : .blankLine ∈ gap.map (·.kind)) :
    moreRecipes (s.push gap) = recipes s := by
  obtain ⟨htake, hdrop⟩ := skip_gap hahead ht hends
  have hany : gap.any (·.kind = .blankLine) := by simpa using hblank
  rw [moreRecipes_of_blankLine (hdrop.trans hahead) (htake.symm ▸ hany), hdrop]
  rfl

theorem book_push (hahead : s.ahead = t :: ts) (ht : t.isLineEnd = false)
    (hends : ∀ t ∈ gap, t.isLineEnd) : book (s.push gap) = recipes s := by
  obtain ⟨-, hdrop⟩ := skip_gap hahead ht hends
  have hne : s.ahead.isEmpty = false := by simp [hahead]
  simp only [book, hdrop, hne, Bool.false_eq_true, if_false]
  rfl

end

/-- What is read of a recipe and those behind it, if the recipe is read. -/
theorem recipes_of_recipe {ds : List Draft} (h : recipe s = .ok (d, s')) :
    recipes s = .ok ds ↔ ∃ ds', moreRecipes s' = .ok ds' ∧ ds = d :: ds' := by
  simp [recipes_eq_ok_iff, h, eq_comm (a := ds)]

/-- A recipe behind a gap is read if there is a blank line in the gap, and then
the recipes behind it. -/
theorem moreRecipes_push_eq_ok_iff {gap : List Token} {ds : List Draft} (hs : s.Proper)
    (h : recipe s = .ok (d, s')) (hends : ∀ t ∈ gap, t.isLineEnd) :
    moreRecipes (s.push gap) = .ok ds ↔
      .blankLine ∈ gap.map (·.kind) ∧ ∃ ds', moreRecipes s' = .ok ds' ∧ ds = d :: ds' := by
  obtain ⟨t, ts, hahead, ht⟩ := exists_cons_of_recipe hs h
  by_cases hblank : .blankLine ∈ gap.map (·.kind)
  · rw [moreRecipes_push hahead ht hends hblank, and_iff_right hblank]
    exact recipes_of_recipe h
  · obtain ⟨htake, hdrop⟩ := skip_gap hahead ht hends
    have hany : ¬ gap.any (·.kind = .blankLine) := by simpa using hblank
    rw [moreRecipes_of_lineBreak (hdrop.trans hahead) (htake.symm ▸ hany)]
    simp [hblank]

theorem book_push_eq_ok_iff {gap : List Token} {ds : List Draft} (hs : s.Proper)
    (h : recipe s = .ok (d, s')) (hends : ∀ t ∈ gap, t.isLineEnd) :
    book (s.push gap) = .ok ds ↔ ∃ ds', moreRecipes s' = .ok ds' ∧ ds = d :: ds' := by
  obtain ⟨t, ts, hahead, ht⟩ := exists_cons_of_recipe hs h
  rw [book_push hahead ht hends]
  exact recipes_of_recipe h

theorem isLineEnd_of_map_face {ts us : List Token} (h : us.map Token.face = ts.map Token.face)
    (hts : ∀ t ∈ ts, t.isLineEnd) : ∀ u ∈ us, u.isLineEnd := by
  intro u hu
  have hmem : u.face ∈ ts.map Token.face := h ▸ List.mem_map_of_mem hu
  obtain ⟨t, ht, hface⟩ := List.mem_map.1 hmem
  have hend := hts t ht
  have hkind : t.kind = u.kind := congrArg Prod.fst hface
  rwa [Token.isLineEnd, hkind] at hend

/-- The same recipe is read from two spacings of it and of what follows it. -/
theorem Takes.exists_recipes {gap' front' inside' behind' us : List Token}
    (h : Takes s front inside behind) (hs : (s.push (front ++ (inside ++ behind))).Proper)
    (hs' : s'.Proper) (hus : s'.ahead = gap' ++ (front' ++ (inside' ++ (behind' ++ us))))
    (hfront : front'.map Token.face = front.map Token.face)
    (hinside : (inside'.filter (·.kind ≠ .lineBreak)).map Token.face =
      (inside.filter (·.kind ≠ .lineBreak)).map Token.face)
    (hbehind : behind'.map Token.face = behind.map Token.face) (hrest : Relaid s us) :
    ∃ (s₁ s₂ : TokenStream) (d d' : Draft), s' = s₁.push gap' ∧ s₁.Proper ∧ s₂.Proper ∧
      s₂.ahead = us ∧ recipe (s.push (front ++ (inside ++ behind))) = .ok (d, s) ∧
      recipe s₁ = .ok (d', s₂) ∧ d'.substance = d.substance := by
  have hahead : s'.ahead = gap' ++ (front' ++ (inside' ++ behind')) ++ us := by simp [hus]
  obtain ⟨s₂, rfl, rfl⟩ := TokenStream.exists_push_of_ahead hahead
  rw [← TokenStream.push_push] at hs'
  obtain ⟨d, hd⟩ := h.exists_recipe
  obtain ⟨d', hd', hsubstance⟩ := h.recipe_relaid hs hs'.of_push hd hfront hinside hbehind hrest
  exact ⟨_, s₂, d, d', TokenStream.push_push.symm, hs'.of_push, hs'.of_push.of_push, rfl, hd, hd',
    hsubstance⟩

/-- The recipes behind another one are read from tokens that look like them. -/
theorem Relaid.moreRecipes {us : List Token} {ds : List Draft} (h : Relaid s us) (hs : s.Proper)
    (hs' : s'.Proper) (hus : s'.ahead = us) (hds : moreRecipes s = .ok ds) :
    ∃ ds', Grammar.moreRecipes s' = .ok ds' ∧
      ds'.map Draft.substance = ds.map Draft.substance := by
  induction h generalizing s' ds with
  | finish hends hface =>
    rw [moreRecipes_of_isLineEnd (List.dropWhile_eq_nil_iff.2 hends)] at hds
    cases hds
    have hends' := isLineEnd_of_map_face hface hends
    exact ⟨[], moreRecipes_of_isLineEnd (List.dropWhile_eq_nil_iff.2 (hus ▸ hends')), rfl⟩
  | recipe hends htakes hgap hfront hinside hbehind hrest ih =>
    rw [← TokenStream.push_push] at hs hds
    obtain ⟨s₁, s₂, d, d', rfl, hs₁, hs₂, hus', hd, hd', hsubstance⟩ :=
      htakes.exists_recipes hs.of_push hs' hus hfront hinside hbehind hrest
    obtain ⟨hblank, ds, hmore, rfl⟩ := (moreRecipes_push_eq_ok_iff hs.of_push hd hends).1 hds
    obtain ⟨ds', hmore', hds'⟩ := ih hs.of_push.of_push hs₂ hus' hmore
    refine ⟨d' :: ds', ?_, by rw [List.map_cons, List.map_cons, hsubstance, hds']⟩
    rw [moreRecipes_push_eq_ok_iff hs₁ hd' (isLineEnd_of_map_face hgap hends),
      map_kind_of_map_face hgap]
    exact ⟨hblank, ds', hmore', rfl⟩

/-- A book is read from tokens that look like it. -/
theorem Relaid.book {us : List Token} {ds : List Draft} (h : Relaid s us) (hs : s.Proper)
    (hs' : s'.Proper) (hus : s'.ahead = us) (hds : book s = .ok ds) :
    ∃ ds', Grammar.book s' = .ok ds' ∧ ds'.map Draft.substance = ds.map Draft.substance := by
  cases h with
  | finish hends hface =>
    have hnil : s.ahead.dropWhile Token.isLineEnd = [] := List.dropWhile_eq_nil_iff.2 hends
    simp [Grammar.book, hnil] at hds
  | recipe hends htakes hgap hfront hinside hbehind hrest =>
    rw [← TokenStream.push_push] at hs hds
    obtain ⟨s₁, s₂, d, d', rfl, hs₁, hs₂, hus', hd, hd', hsubstance⟩ :=
      htakes.exists_recipes hs.of_push hs' hus hfront hinside hbehind hrest
    obtain ⟨ds, hmore, rfl⟩ := (book_push_eq_ok_iff hs.of_push hd hends).1 hds
    obtain ⟨ds', hmore', hds'⟩ := hrest.moreRecipes hs.of_push.of_push hs₂ hus' hmore
    refine ⟨d' :: ds', ?_, by rw [List.map_cons, List.map_cons, hsubstance, hds']⟩
    rw [book_push_eq_ok_iff hs₁ hd' (isLineEnd_of_map_face hgap hends)]
    exact ⟨ds', hmore', rfl⟩

/-! ## Books that look the same -/

theorem relaid_of_recipe {us : List Token} (hs : s.Proper)
    (h : recipe { s with ahead := s.ahead.dropWhile Token.isLineEnd } = .ok (d, s'))
    (hrest : ∀ us, us.map Token.face = s'.ahead.map Token.face → Relaid s' us)
    (hface : us.map Token.face = s.ahead.map Token.face) : Relaid s us := by
  have hs₁ := hs.dropWhile Token.isLineEnd
  obtain ⟨p, hpush, hp, hend⟩ := yields_of_recipe hs₁ h
  have htakes := takes_of_yields hp hend (hpush ▸ hs₁)
  have hahead : s = (s'.push p.tokens).push (s.ahead.takeWhile Token.isLineEnd) := by
    rw [← hpush]
    exact TokenStream.eq_push_iff.2 ⟨List.takeWhile_append_dropWhile.symm, rfl⟩
  have hends : ∀ t ∈ s.ahead.takeWhile Token.isLineEnd, t.isLineEnd := fun _ =>
    List.mem_takeWhile_imp
  generalize s.ahead.takeWhile Token.isLineEnd = gap at hahead hends
  rw [hahead] at hface ⊢
  rw [TokenStream.push_push, p.tokens_eq_front_append] at hface ⊢
  simp only [TokenStream.ahead_push, List.map_append, List.append_assoc] at hface
  obtain ⟨gap', _, rfl, hgap, hback⟩ := List.map_eq_append_iff.1 hface
  obtain ⟨front', _, rfl, hfront, hback⟩ := List.map_eq_append_iff.1 hback
  obtain ⟨inside', _, rfl, hinside, hback⟩ := List.map_eq_append_iff.1 hback
  obtain ⟨behind', us, rfl, hbehind, hus⟩ := List.map_eq_append_iff.1 hback
  refine .recipe hends htakes hgap hfront ?_ hbehind (hrest us hus)
  have hfilter := congrArg (List.filter (·.1 ≠ .lineBreak)) hinside
  rwa [List.filter_map, List.filter_map] at hfilter

theorem proper_of_recipe (hs : s.Proper) (h : recipe s = .ok (d, s')) : s'.Proper := by
  obtain ⟨p, rfl, -⟩ := yields_of_recipe hs h
  exact hs.of_push

theorem relaid_of_moreRecipes {us : List Token} {ds : List Draft} (hs : s.Proper)
    (h : moreRecipes s = .ok ds) (hface : us.map Token.face = s.ahead.map Token.face) :
    Relaid s us := by
  induction s using moreRecipes_induction generalizing us ds with
  | last s hnil => exact .finish (List.dropWhile_eq_nil_iff.1 hnil) hface
  | lineBreak s t rest hcons hblank =>
    rw [moreRecipes_of_lineBreak hcons hblank] at h
    cases h
  | blankLine s t rest hcons hblank ih =>
    rw [moreRecipes_of_blankLine hcons hblank] at h
    obtain ⟨d, s₂, ds', hrecipe, hmore, rfl⟩ := recipes_eq_ok_iff.1 h
    have hs₂ : s₂.Proper := proper_of_recipe (hs.dropWhile Token.isLineEnd) hrecipe
    exact relaid_of_recipe hs hrecipe (fun us => ih d s₂ hrecipe hs₂ hmore) hface

/-- Tokens that look like those of a book are another spacing of it. -/
theorem relaid_of_book {us : List Token} {ds : List Draft} (hs : s.Proper) (h : book s = .ok ds)
    (hface : us.map Token.face = s.ahead.map Token.face) : Relaid s us := by
  obtain ⟨d, s₂, ds', hrecipe, hmore, -⟩ := exists_recipe_of_book h
  have hs₂ : s₂.Proper := proper_of_recipe (hs.dropWhile Token.isLineEnd) hrecipe
  exact relaid_of_recipe hs hrecipe (fun us => relaid_of_moreRecipes hs₂ hmore) hface

end

end Grammar

/-! ## Texts -/

/-- How a book is spaced does not matter.  If a text is accepted, so is each text
with the same tokens but for line breaks inside methods, and the recipes differ
only in their places and in how their comments are spaced; this holds for each
text that looks the same token by token. -/
theorem parse_of_relaid {text : Text} {ds : List Draft} (h : Draft.parse text = .ok ds) :
    (∀ text', Grammar.Relaid (.ofText text) (TokenStream.ofText text').ahead →
      ∃ ds', Draft.parse text' = .ok ds' ∧ ds'.map Draft.substance = ds.map Draft.substance) ∧
    ∀ text', (Token.scan text').map Token.face = (Token.scan text).map Token.face →
      ∃ ds', Draft.parse text' = .ok ds' ∧ ds'.map Draft.substance = ds.map Draft.substance := by
  have hs := TokenStream.proper_ofText text
  have hrelaid (text' : Text)
      (htext : Grammar.Relaid (.ofText text) (TokenStream.ofText text').ahead) :
      ∃ ds', Draft.parse text' = .ok ds' ∧ ds'.map Draft.substance = ds.map Draft.substance :=
    htext.book hs (TokenStream.proper_ofText text') rfl h
  refine ⟨hrelaid, fun text' hface => hrelaid text' (Grammar.relaid_of_book hs h ?_)⟩
  simp only [Token.scan, TokenStream.toList, List.map_append] at hface
  exact (List.append_inj' hface rfl).1

/-- Statements on other lines, a longer blank line and other blanks between
words. -/
theorem parse_of_relaid_soup :
    let text : Text := "Soup.\n\nMethod.\nAdd dry ingredients.\nMix well.\n\nServes 2."
    let text' : Text := "Soup .\n \n\nMethod.\nAdd\ndry  ingredients. Mix\nwell.\n\n\nServes 2."
    let soup : Draft :=
      { title := "Soup", serves := some 2, method := [{ action := .addDry }, { action := .mix }] }
    (∃ ds, Draft.parse text = .ok ds ∧ ds.map Draft.substance = [soup]) ∧
      ∃ ds, Draft.parse text' = .ok ds ∧ ds.map Draft.substance = [soup] := by
  intro text text' soup
  -- the recipe without its method, and with it
  let named : Draft := { title := "Soup", location := { line := 1, col := 0 } }
  let is : List Instruction :=
    [{ action := .addDry, location := { line := 4, col := 0 } },
      { action := .mix, location := { line := 5, col := 0 } }]
  let ts := (TokenStream.ofText text).ahead
  let us := (TokenStream.ofText text').ahead
  let s : TokenStream := { ahead := [], finish := (TokenStream.ofText text).finish }
  have hparse : Draft.parse text = .ok [{ named with method := is, serves := some 2 }] := by
    decide +kernel
  have htakes : Grammar.Takes s (ts.take 6) ((ts.drop 6).take 8) (ts.drop 14) :=
    ⟨⟨named, by decide +kernel⟩, ⟨is, by decide +kernel⟩, ⟨some 2, by decide +kernel⟩⟩
  have hrelaid : Grammar.Relaid (s.push ([] ++ (ts.take 6 ++ ((ts.drop 6).take 8 ++ ts.drop 14))))
      ([] ++ (us.take 6 ++ ((us.drop 6).take 9 ++ (us.drop 15 ++ [])))) :=
    .recipe (by simp) htakes rfl (by decide +kernel) (by decide +kernel) (by decide +kernel)
      (.finish (by simp [s]) rfl)
  have hts : s.push ([] ++ (ts.take 6 ++ ((ts.drop 6).take 8 ++ ts.drop 14))) = .ofText text := by
    decide +kernel
  have hus : [] ++ (us.take 6 ++ ((us.drop 6).take 9 ++ (us.drop 15 ++ []))) = us := by
    decide +kernel
  rw [hts, hus] at hrelaid
  exact ⟨⟨_, hparse, rfl⟩, (parse_of_relaid hparse).1 text' hrelaid⟩

end Cookbook
