import Cookbook.Proofs.Draft.Manuscript
import Mathlib.Data.List.TakeWhile

/-!
# Cookbook.Proofs.Draft.Rereading

Reading recipes that were written out.  `Holds ts ls` says that some tokens have
given lexemes, wherever they stand.  From tokens that hold the pages of readable
recipes the same recipes are read, at other places and without their ingredients
(`Draft.Restates`): each statement asks for what it was written for
(`statements_lines`), the headings and the number of diners are where the parts
of a recipe are looked for (`recipe_page`), and a blank line is before each
recipe but the first (`recipes_pages`).
-/

namespace Cookbook

open Text

/-! ## Tokens with given lexemes -/

/-- Whether some tokens have given lexemes. -/
def Holds (ts : List Token) (ls : List Text) : Prop :=
  ts.map Token.bare = ls.map Token.ofLexeme

namespace Holds

variable {ts : List Token} {l : Text} {ls ms : List Text}

theorem cons (h : Holds ts (l :: ls)) :
    ∃ t ts', ts = t :: ts' ∧ t.kind = Token.Kind.ofLexeme l ∧ t.lexeme = l ∧ Holds ts' ls := by
  unfold Holds at h
  rw [List.map_cons, List.map_eq_cons_iff] at h
  obtain ⟨t, ts', rfl, ht, hts'⟩ := h
  rw [Token.bare, Token.ofLexeme, Token.mk.injEq] at ht
  exact ⟨t, ts', rfl, ht.1, ht.2.1, hts'⟩

theorem append (h : Holds ts (ls ++ ms)) :
    ∃ us vs, ts = us ++ vs ∧ Holds us ls ∧ Holds vs ms := by
  unfold Holds at h
  rw [List.map_append, List.map_eq_append_iff] at h
  exact h

theorem eq_nil (h : Holds ts []) : ts = [] := List.map_eq_nil_iff.1 h

theorem map_lexeme (h : Holds ts ls) : ts.map (·.lexeme) = ls := by
  have hmap := congrArg (List.map (·.lexeme)) h
  simpa [Holds, Function.comp_def] using hmap

theorem head? (h : Holds ts ls) {t : Token} (ht : ts.head? = some t) :
    ls.head? = some t.lexeme ∧ t.kind = Token.Kind.ofLexeme t.lexeme := by
  rw [List.head?_eq_some_iff] at ht
  obtain ⟨ts', rfl⟩ := ht
  cases ls with
  | nil => exact absurd h.eq_nil (by simp)
  | cons l ls =>
    obtain ⟨u, us, heq, hk, rfl, -⟩ := h.cons
    rw [List.cons.injEq] at heq
    exact ⟨by rw [heq.1]; rfl, by rw [heq.1, hk]⟩

/-- Tokens with plain lexemes are no breaks and may stand in a sentence. -/
theorem of_isPlain (h : Holds ts ls) (hplain : ∀ l ∈ ls, l.IsPlain) {t : Token} (ht : t ∈ ts) :
    t.isBreak = false ∧ t.isStray = false := by
  have hmem : t.bare ∈ ls.map Token.ofLexeme := h ▸ List.mem_map_of_mem ht
  obtain ⟨l, hl, hbare⟩ := List.mem_map.1 hmem
  have hkind : t.kind = (Token.ofLexeme l).kind := by rw [hbare, Token.kind_bare]
  have hbreak := (hplain l hl).isBreak
  have hstray := (hplain l hl).isStray
  simp only [Token.isBreak, Token.isStray, ← hkind] at hbreak hstray ⊢
  exact ⟨hbreak, hstray⟩

end Holds

/-! ## Statements -/

namespace Grammar

open Reading

theorem statements_of_lineBreak {t : Token} {rest sentence : List Token}
    (hk : t.kind = .lineBreak) :
    statements (t :: rest) sentence = statements rest sentence := by
  rw [statements.eq_def]
  simp only [hk]

/-- A word is added to the sentence that is being read. -/
theorem statements_of_word {t : Token} {rest sentence : List Token} (hbreak : t.isBreak = false)
    (hstray : t.isStray = false) (hfirst : sentence = [] → t.kind ≠ .serves) :
    statements (t :: rest) sentence = statements rest (sentence ++ [t]) := by
  rw [statements.eq_def]
  cases hk : t.kind with
  | lineBreak | blankLine | finish => simp [Token.isBreak, hk] at hbreak
  | period | unexpected => simp [Token.isStray, hk] at hstray
  | word | number | ingredients | method => simp only [hk]
  | serves =>
    cases sentence with
    | nil => exact absurd hk (hfirst rfl)
    | cons u sentence => simp [hk]

/-- A period ends the statement that is being read. -/
theorem statements_of_period {t : Token} {rest rest' sentence : List Token} {i : Instruction}
    {is : List Instruction} (hk : t.kind = .period)
    (hread : Instruction.read sentence = .ok (some i))
    (hrest : statements rest [] = .ok (is, rest')) (hne : sentence ≠ []) :
    statements (t :: rest) sentence = .ok (i :: is, rest') := by
  obtain ⟨u, sentence, rfl⟩ := List.exists_cons_of_ne_nil hne
  rw [statements.eq_def]
  simp only [hk, hread, hrest]
  rfl

/-- A method ends before a blank line and before `Serves`. -/
theorem statements_of_end {t : Token} {rest : List Token}
    (hk : t.kind = .blankLine ∨ t.kind = .serves) :
    statements (t :: rest) [] = .ok ([], t :: rest) := by
  rw [statements.eq_def]
  rcases hk with hk | hk <;> simp [hk]

/-- Words are added to the sentence one by one. -/
theorem statements_words {us rest sentence : List Token}
    (hplain : ∀ t ∈ us, t.isBreak = false ∧ t.isStray = false)
    (hfirst : ∀ t, (sentence ++ us).head? = some t → t.kind ≠ .serves) :
    statements (us ++ rest) sentence = statements rest (sentence ++ us) := by
  induction us generalizing sentence with
  | nil => rw [List.nil_append, List.append_nil]
  | cons t us ih =>
    rw [List.forall_mem_cons] at hplain
    obtain ⟨⟨hbreak, hstray⟩, hus⟩ := hplain
    have happend : sentence ++ [t] ++ us = sentence ++ t :: us := by simp
    rw [List.cons_append, statements_of_word hbreak hstray, ih hus (happend ▸ hfirst), happend]
    rintro rfl
    exact hfirst t rfl

/-- A statement that is written out asks for what it was written for. -/
theorem statements_sentence {us rest rest' : List Token} {stop : Token} {i : Instruction}
    {js : List Instruction} (hi : i.Sayable) (hus : Holds us (sentenceLexemes i.sentence))
    (hstop : stop.kind = .period) (hrest : statements rest [] = .ok (js, rest')) :
    ∃ j, j.Agrees i ∧ statements (us ++ stop :: rest) [] = .ok (j :: js, rest') := by
  obtain ⟨j, hread, hj⟩ := (read_eq_ok_some_iff hus).2 ⟨hi.ne_nil, hi.asks⟩
  have hne : us ≠ [] := by
    rintro rfl
    exact hi.ne_nil hus.map_lexeme.symm
  refine ⟨j, hj, ?_⟩
  rw [statements_words (fun t ht => hus.of_isPlain hi.isPlain ht), List.nil_append]
  · exact statements_of_period hstop hread hrest hne
  · intro t ht hk
    obtain ⟨hhead, hkind⟩ := hus.head? ht
    refine hi.not_serves (hhead.trans ?_)
    rw [hkind, ofLexeme_eq_serves_iff] at hk
    · rw [hk]
    · exact (hi.isPlain _ (List.mem_of_mem_head? hhead)).isLexeme

/-- Statements on lines of their own are read one by one. -/
theorem statements_lines {us rest rest' : List Token} {is : List Instruction}
    (his : ∀ i ∈ is, i.Sayable) (hus : Holds us (is.flatMap Instruction.line))
    (hrest : statements rest [] = .ok ([], rest')) :
    ∃ js, List.Forall₂ Instruction.Agrees js is ∧
      statements (us ++ rest) [] = .ok (js, rest') := by
  induction is generalizing us with
  | nil =>
    obtain rfl := hus.eq_nil
    exact ⟨[], .nil, hrest⟩
  | cons i is ih =>
    rw [List.forall_mem_cons] at his
    rw [List.flatMap_cons, Instruction.line, List.cons_append, List.append_assoc] at hus
    obtain ⟨br, us, rfl, hbreak, -, hus⟩ := hus.cons
    obtain ⟨vs, us, rfl, hvs, hus⟩ := hus.append
    obtain ⟨stop, us, rfl, hstop, -, hus⟩ := hus.cons
    obtain ⟨js, hjs, hread⟩ := ih his.2 hus
    obtain ⟨j, hj, hfirst⟩ := statements_sentence his.1 hvs hstop hread
    refine ⟨j :: js, .cons hj hjs, ?_⟩
    rw [List.cons_append, statements_of_lineBreak hbreak, List.append_assoc, List.cons_append]
    exact hfirst

/-! ## Parts of a recipe -/

section

variable {s s' : TokenStream} {g m stop br : Token} {us rest rest' : List Token}

theorem title_of_holds {name : Text} (hname : IsTitle name) (hus : Holds us (lexemes name))
    (hs : s.ahead = us ++ stop :: g :: rest) (hstop : stop.kind = .period) (hg : g.isBreak) :
    ∃ location, title s = .ok ((name, location), { s with ahead := g :: rest }) := by
  have hplain : ∀ t ∈ us, t.isBreak = false ∧ t.isStray = false :=
    fun t ht => hus.of_isPlain hname.isPlain ht
  have hline : ∀ t ∈ us ++ [stop], (fun t : Token => !t.isBreak) t := by
    refine List.forall_mem_append.2 ⟨fun t ht => by simp [(hplain t ht).1], ?_⟩
    exact List.forall_mem_singleton.2 (by simp [Token.isBreak, hstop])
  have hahead : s.ahead = (us ++ [stop]) ++ g :: rest := by simp [hs]
  have htake : s.ahead.takeWhile (fun t => !t.isBreak) = us ++ [stop] := by
    rw [hahead, List.takeWhile_append_of_pos hline, List.takeWhile_cons, if_neg (by simp [hg]),
      List.append_nil]
  have hdrop : s.ahead.dropWhile (fun t => !t.isBreak) = g :: rest := by
    rw [hahead, List.dropWhile_append_of_pos hline, List.dropWhile_cons, if_neg (by simp [hg])]
  have hne : us ≠ [] := by
    rintro rfl
    exact hname.ne_nil hus.map_lexeme.symm
  have hfind : us.find? Token.isStray = none := by
    rw [List.find?_eq_none]
    exact fun t ht => by simp [(hplain t ht).2]
  have hjoin : Token.join us = name := by
    rw [Token.join_eq_spaced, hus.map_lexeme, ← hname.eq_spaced]
    intro t ht
    have hmem : t.lexeme ∈ lexemes name := hus.map_lexeme ▸ List.mem_map_of_mem ht
    exact (hname.isPlain _ hmem).isLexeme.ne_nil
  have hkeep : (us.isEmpty || decide (stop.kind ≠ .period)) = false := by simp [hne, hstop]
  refine ⟨s.peek.location, ?_⟩
  simp only [title, bind_def, peek_def, line, takeWhile_def, htake, hdrop, List.getLast?_concat,
    List.dropLast_concat, hkeep, Bool.false_eq_true, if_false, hfind, hjoin, pure_def]

theorem method_of_holds {is : List Instruction} (hs : s.ahead = m :: stop :: br :: rest)
    (hm : m.kind = .method) (hstop : stop.kind = .period) (hbr : br.kind = .lineBreak)
    (hread : statements rest [] = .ok (is, rest')) (hne : is ≠ []) :
    method s = .ok (is, { s with ahead := rest' }) := by
  have hhere : atHeading .method s = .ok (true, s) := by
    simp [atHeading_def, TokenStream.peek, TokenStream.drop, hs, hm, hstop]
  have hheading : heading .methodHeading s = .ok ((), { s with ahead := rest }) := by
    simp [heading, bind_def, next_def, TokenStream.peek, TokenStream.drop, hs, hbr, pure_def]
  have hempty : is.isEmpty = false := by simpa using hne
  simp only [method, bind_def, hhere, if_true, hheading, ofTokens_def, hread, hempty,
    Bool.false_eq_true, if_false, pure_def]

/-- Nobody is served where no number of diners stands ahead. -/
theorem serves_of_servesNobody (h : ServesNobody s.ahead) (hfinish : s.finish.kind = .finish) :
    serves s = .ok (none, s) := by
  have hnone : s.peek.kind ≠ .serves ∧
      ¬ (s.peek.kind = .blankLine ∧ (s.drop 1).peek.kind = .serves) := by
    rcases h with hnil | ⟨t, rest, hcons, hk, hnext⟩
    · simp [TokenStream.peek, hnil, hfinish]
    · cases rest with
      | nil => simp [TokenStream.peek, TokenStream.drop, hcons, hk, hfinish]
      | cons u rest => simp [TokenStream.peek, TokenStream.drop, hcons, hk, hnext u rfl]
  have hto : toServes s = .ok ((), s) := by
    rw [toServes, if_neg hnone.2]
    rfl
  simp only [serves, bind_def, hto, peek_def, if_neg hnone.1, pure_def]

/-- The number of diners is read as it is written. -/
theorem serves_of_diners {n : Int64} {count : Token}
    (hs : s.ahead = m :: count :: stop :: g :: rest)
    (hm : m.kind = .serves) (hcount : count.kind = .number n) (hn : 1 ≤ n)
    (hstop : stop.kind = .period) (hg : g.isBreak) :
    serves s = .ok (some n, { s with ahead := g :: rest }) := by
  have hto : toServes s = .ok ((), s) := by
    rw [toServes, if_neg (by simp [TokenStream.peek, hs, hm])]
    rfl
  have hpeek : s.peek = m := by simp [TokenStream.peek, hs]
  have hlt : ¬ n < 1 := Int64.not_lt.2 hn
  simp only [serves, bind_def, hto, peek_def, next_def, hpeek, hm, if_true]
  simp [TokenStream.peek, TokenStream.drop, hs, hcount, hlt, hstop, hg, bind_def, next_def,
    peek_def, pure_def]

/-- A recipe that consists of a method and a number of diners. -/
theorem body_of_holds {name : Text} {location : Location} {is : List Instruction}
    {v : Option Int64} (hs : s.ahead = g :: m :: stop :: br :: rest) (hg : g.kind = .blankLine)
    (hm : m.kind = .method) (hlexeme : m.lexeme = ofString "Method") (hstop : stop.kind = .period)
    (hbr : br.kind = .lineBreak) (hread : statements rest [] = .ok (is, rest')) (hne : is ≠ [])
    (hserves : serves { s with ahead := rest' } = .ok (v, s')) :
    body name location s =
      .ok ({ title := name, location := location, method := is, serves := v }, s') := by
  have hline : newLineAfter .title s = .ok ((), { s with ahead := m :: stop :: br :: rest }) := by
    simp [newLineAfter, bind_def, next_def, TokenStream.peek, TokenStream.drop, hs,
      Token.isLineEnd, hg, pure_def]
  have hmethod := method_of_holds (s := { s with ahead := m :: stop :: br :: rest }) rfl hm hstop
    hbr hread hne
  -- the heading of the method is none of the other parts
  have hingredients : atHeading .ingredients { s with ahead := m :: stop :: br :: rest } =
      .ok (false, { s with ahead := m :: stop :: br :: rest }) := by
    simp [atHeading_def, TokenStream.peek, hm]
  have hhere : atHeading .method { s with ahead := m :: stop :: br :: rest } =
      .ok (true, { s with ahead := m :: stop :: br :: rest }) := by
    simp [atHeading_def, TokenStream.peek, TokenStream.drop, hm, hstop]
  have hwords (first second : Text) (hfirst : ofString "Method" ≠ first) :
      atWords first second { s with ahead := m :: stop :: br :: rest } =
        .ok (false, { s with ahead := m :: stop :: br :: rest }) := by
    simp [atWords_def, TokenStream.peek, hlexeme, hfirst]
  have htime := hwords "Cooking" "time:" (by decide)
  have hoven := hwords "Pre-heat" "oven" (by decide)
  simp only [body, bind_def, hline, optionalComment, atPart, hingredients, hhere, htime, hoven,
    pure_def, Bool.false_or, Bool.true_or, if_true, whenHere, Bool.false_eq_true, if_false, hmethod,
    hserves]

end

end Grammar

/-! ## Recipes -/

/-- Whether a recipe is another one without its ingredients, at another
place. -/
structure Draft.Restates (d' d : Draft) : Prop where
  title : d'.title = d.title
  ingredients : d'.ingredients = []
  method : List.Forall₂ Instruction.Agrees d'.method d.method
  serves : d'.serves = d.serves

namespace Grammar

open Reading

section

variable {s : TokenStream} {ts rest rest' : List Token} {d : Draft}

/-- What has to stand behind a page for the recipe to end there, and what is
left of it: a method that is not followed by diners takes single line breaks
along. -/
def EndsPage (d : Draft) (rest rest' : List Token) : Prop :=
  (d.serves = none ∧ statements rest [] = .ok ([], rest') ∧ ServesNobody rest') ∨
    (∃ n, d.serves = some n) ∧ rest' = rest ∧ ∃ g more, rest = g :: more ∧ g.isBreak

/-- The statements of a page are read up to the diners, and then the diners. -/
theorem statements_page (hd : d.Readable)
    (hts : Holds ts ((d.method ++ d.serving).flatMap Instruction.line))
    (hfinish : s.finish.kind = .finish) (hend : EndsPage d rest rest') :
    ∃ is rest₁, statements (ts ++ rest) [] = .ok (is, rest₁) ∧
      List.Forall₂ Instruction.Agrees is d.method ∧
        serves { s with ahead := rest₁ } = .ok (d.serves, { s with ahead := rest' }) := by
  rw [List.flatMap_append] at hts
  obtain ⟨us, vs, rfl, hus, hvs⟩ := hts.append
  rw [List.append_assoc]
  rcases hend with ⟨hnone, hread, hnobody⟩ | ⟨⟨n, hn⟩, rfl, g, more, rfl, hg⟩
  · rw [Draft.serving, hnone] at hvs
    obtain rfl := hvs.eq_nil
    obtain ⟨is, his, hlines⟩ := statements_lines hd.sayable hus hread
    exact ⟨is, rest', hlines, his, hnone ▸ serves_of_servesNobody hnobody hfinish⟩
  · have hdiners := hd.diners n hn
    rw [Draft.serving, hn, List.flatMap_singleton, Instruction.line,
      (sentenceLexemes_serve hdiners).1] at hvs
    obtain ⟨br, vs, rfl, hbr, -, hvs⟩ := hvs.cons
    obtain ⟨sv, vs, rfl, hsv, -, hvs⟩ := hvs.cons
    obtain ⟨count, vs, rfl, hcount, -, hvs⟩ := hvs.cons
    obtain ⟨stop, vs, rfl, hstop, -, hvs⟩ := hvs.cons
    obtain rfl := hvs.eq_nil
    rw [Token.Kind.ofLexeme_ofInt64 (Int64.le_trans (by decide) hdiners)] at hcount
    have hserve : statements (br :: sv :: count :: stop :: g :: more) [] =
        .ok ([], sv :: count :: stop :: g :: more) := by
      rw [statements_of_lineBreak hbr]
      exact statements_of_end (.inr hsv)
    obtain ⟨is, his, hlines⟩ := statements_lines hd.sayable hus hserve
    refine ⟨is, _, hlines, his, ?_⟩
    rw [hn]
    exact serves_of_diners rfl hsv hcount hdiners hstop hg

/-- A page is read as the recipe it was written for. -/
theorem recipe_page (hd : d.Readable) (hs : s.ahead = ts ++ rest) (hts : Holds ts d.page)
    (hfinish : s.finish.kind = .finish) (hend : EndsPage d rest rest') :
    ∃ d', recipe s = .ok (d', { s with ahead := rest' }) ∧ d'.Restates d := by
  rw [Draft.page] at hts
  obtain ⟨us, ts, rfl, hus, hts⟩ := hts.append
  obtain ⟨stop, ts, rfl, hstop, -, hts⟩ := hts.cons
  obtain ⟨g, ts, rfl, hg, -, hts⟩ := hts.cons
  obtain ⟨m, ts, rfl, hm, hlexeme, hts⟩ := hts.cons
  obtain ⟨stop', ts, rfl, hstop', -, hts⟩ := hts.cons
  obtain ⟨is, rest₁, hread, his, hserves⟩ := statements_page hd hts hfinish hend
  -- the heading takes the line break before the first statement
  have hfirst : ∃ br ts', ts = br :: ts' ∧ br.kind = .lineBreak := by
    obtain ⟨i, method, hmethod⟩ := List.exists_cons_of_ne_nil hd.method_ne_nil
    rw [hmethod, List.cons_append, List.flatMap_cons, Instruction.line, List.cons_append] at hts
    obtain ⟨br, ts', rfl, hbr, -, -⟩ := hts.cons
    exact ⟨br, ts', rfl, hbr⟩
  obtain ⟨br, ts, rfl, hbr⟩ := hfirst
  rw [List.cons_append, statements_of_lineBreak hbr] at hread
  have hne : is ≠ [] := by
    rintro rfl
    exact hd.method_ne_nil (List.forall₂_nil_left_iff.1 his)
  have hblank : g.kind = .blankLine := hg
  have hahead : s.ahead = us ++ stop :: g :: m :: stop' :: br :: (ts ++ rest) := by simp [hs]
  obtain ⟨location, htitle⟩ :=
    title_of_holds hd.title hus hahead hstop (by simp [Token.isBreak, hblank])
  have hbody : body d.title location { s with ahead := g :: m :: stop' :: br :: (ts ++ rest) } =
      .ok ({ title := d.title, location := location, method := is, serves := d.serves },
        { s with ahead := rest' }) :=
    body_of_holds rfl hblank hm hlexeme hstop' hbr hread hne hserves
  refine ⟨{ title := d.title, location := location, method := is, serves := d.serves }, ?_,
    ⟨rfl, rfl, his, rfl⟩⟩
  rw [recipe, bind_def, htitle]
  exact hbody

end

/-! ## Books -/

/-- Behind a single blank line, reading recipes starts again. -/
theorem moreRecipes_of_cons {s : TokenStream} {g t : Token} {rest : List Token}
    (hs : s.ahead = g :: t :: rest) (hg : g.kind = .blankLine) (ht : t.isLineEnd = false) :
    moreRecipes s = recipes { s with ahead := t :: rest } := by
  have hline : g.isLineEnd := by simp [Token.isLineEnd, hg]
  have hdrop : s.ahead.dropWhile Token.isLineEnd = t :: rest := by
    simp [hs, hline, ht]
  rw [moreRecipes_of_blankLine hdrop (by simp [hs, hline, ht, hg]), hdrop]

/-- The first token of some pages is a word of a title. -/
theorem head_of_pages {ts : List Token} {d : Draft} {ds : List Draft} (hd : d.Readable)
    (hts : Holds ts (pages (d :: ds))) :
    ∃ t ts', ts = t :: ts' ∧ t.isLineEnd = false ∧
      (t.kind = .serves → (lexemes d.title).head? = some (ofString "Serves")) := by
  obtain ⟨w, ws, hw⟩ := List.exists_cons_of_ne_nil hd.title.ne_nil
  have hpages : ∃ ls, pages (d :: ds) = w :: ls := by
    cases ds with
    | nil => exact ⟨_, by rw [pages, Draft.page, hw, List.cons_append, List.cons_append]⟩
    | cons e ds => exact ⟨_, by rw [pages, Draft.page, hw, List.cons_append, List.cons_append]⟩
  obtain ⟨ls, hls⟩ := hpages
  rw [hls] at hts
  obtain ⟨t, ts', rfl, hk, -, -⟩ := hts.cons
  have hplain : w.IsPlain := hd.title.isPlain w (by simp [hw])
  refine ⟨t, ts', rfl, ?_, ?_⟩
  · have hbreak := hplain.isBreak
    simp only [Token.isBreak, Token.kind_ofLexeme, ← hk] at hbreak
    unfold Token.isLineEnd
    grind
  · intro hserves
    rw [hk, ofLexeme_eq_serves_iff hplain.isLexeme] at hserves
    rw [hw, hserves, List.head?_cons]

/-- The pages of readable recipes are read as these recipes. -/
theorem recipes_pages {s : TokenStream} {d : Draft} {ds : List Draft}
    (hreadable : ∀ e ∈ d :: ds, e.Readable) (hchain : (d :: ds).IsChain Draft.MayPrecede)
    (hs : Holds s.ahead (pages (d :: ds))) (hfinish : s.finish.kind = .finish) :
    ∃ ds', recipes s = .ok ds' ∧ List.Forall₂ Draft.Restates ds' (d :: ds) := by
  induction ds generalizing s d with
  | nil =>
    have hd := hreadable d (by simp)
    rw [pages] at hs
    obtain ⟨ts, vs, hts, hpage, hvs⟩ := hs.append
    obtain ⟨br, vs, rfl, hbr, -, hvs⟩ := hvs.cons
    obtain rfl := hvs.eq_nil
    have hend : ∃ rest', EndsPage d [br] rest' ∧ ∀ t ∈ rest', t.isLineEnd := by
      cases hserves : d.serves with
      | none =>
        have hread : statements [br] [] = .ok ([], []) := by
          rw [statements_of_lineBreak hbr]
          rfl
        exact ⟨[], .inl ⟨hserves, hread, .inl rfl⟩, by simp⟩
      | some n =>
        have hlf : br.kind = .lineBreak := hbr
        exact ⟨[br], .inr ⟨⟨n, hserves⟩, rfl, br, [], rfl, by simp [Token.isBreak, hlf]⟩,
          by simp [Token.isLineEnd, hlf]⟩
    obtain ⟨rest', hend, hlines⟩ := hend
    obtain ⟨d', hrecipe, hd'⟩ := recipe_page hd hts hpage hfinish hend
    have hmore : moreRecipes { s with ahead := rest' } = .ok [] :=
      moreRecipes_of_isLineEnd (List.dropWhile_eq_nil_iff.2 hlines)
    exact ⟨[d'], recipes_eq_ok_iff.2 ⟨d', _, [], hrecipe, hmore, rfl⟩, .cons hd' .nil⟩
  | cons e ds ih =>
    rw [List.forall_mem_cons] at hreadable
    rw [List.isChain_cons_cons] at hchain
    rw [pages] at hs
    obtain ⟨ts, vs, hts, hpage, hvs⟩ := hs.append
    obtain ⟨g, more, rfl, hg, -, hmore⟩ := hvs.cons
    have hblank : g.kind = .blankLine := hg
    obtain ⟨t, more, rfl, ht, hfirst⟩ := head_of_pages (hreadable.2 e (by simp)) hmore
    have hend : EndsPage d (g :: t :: more) (g :: t :: more) := by
      cases hserves : d.serves with
      | none =>
        refine .inl ⟨hserves, statements_of_end (.inl hblank), .inr ⟨g, t :: more, rfl, hblank, ?_⟩⟩
        intro u hu hk
        rw [List.head?_cons, Option.some.injEq] at hu
        exact hchain.1 hserves (hfirst (hu ▸ hk))
      | some n => exact .inr ⟨⟨n, hserves⟩, rfl, g, _, rfl, by simp [Token.isBreak, hblank]⟩
    obtain ⟨d', hrecipe, hd'⟩ := recipe_page hreadable.1 hts hpage hfinish hend
    obtain ⟨ds', hrecipes, hds'⟩ :=
      ih (s := { s with ahead := t :: more }) hreadable.2 hchain.2 hmore hfinish
    have hnext : moreRecipes { s with ahead := g :: t :: more } = .ok ds' :=
      (moreRecipes_of_cons rfl hblank ht).trans hrecipes
    exact ⟨d' :: ds', recipes_eq_ok_iff.2 ⟨d', _, ds', hrecipe, hnext, rfl⟩, .cons hd' hds'⟩

end Grammar

/-! ## Texts -/

theorem kind_finish_stream (c : Cursor) : c.stream.finish.kind = .finish :=
  congrArg Token.kind c.bare_finish_stream

/-- The tokens of a text have its lexemes. -/
theorem holds_ofText {text : Text} (h : (0 : UInt8) ∉ text) :
    Holds (TokenStream.ofText text).ahead (lexemes text) := by
  have hnul : untilNul text = text := untilNul_eq_self fun b hb h0 => h (h0 ▸ hb)
  rw [Holds, TokenStream.ofText, Cursor.map_bare_stream, Cursor.start, hnul]

/-- Readable recipes that are written out are read again, without their
ingredients and at other places. -/
theorem parse_manuscript {ds : List Draft} (hne : ds ≠ []) (hreadable : ∀ d ∈ ds, d.Readable)
    (hchain : ds.IsChain Draft.MayPrecede) :
    ∃ ds', Draft.parse (manuscript (ds.map Draft.unpaired)) = .ok ds' ∧
      List.Forall₂ Draft.Restates ds' ds := by
  obtain ⟨d, ds, rfl⟩ := List.exists_cons_of_ne_nil hne
  have hholds : Holds (TokenStream.ofText (manuscript ((d :: ds).map Draft.unpaired))).ahead
      (pages (d :: ds)) :=
    lexemes_manuscript hreadable ▸ holds_ofText (noNul_manuscript hreadable)
  obtain ⟨t, ts, hts, ht, -⟩ := Grammar.head_of_pages (hreadable d (by simp)) hholds
  obtain ⟨ds', hrecipes, hrestates⟩ :=
    Grammar.recipes_pages hreadable hchain hholds (kind_finish_stream _)
  refine ⟨ds', ?_, hrestates⟩
  rw [Draft.parse, Grammar.book]
  generalize TokenStream.ofText (manuscript ((d :: ds).map Draft.unpaired)) = s at hts hrecipes ⊢
  have hdrop : s.ahead.dropWhile Token.isLineEnd = s.ahead := by simp [hts, ht]
  have hempty : s.ahead.isEmpty = false := by simp [hts]
  simpa only [hdrop, hempty, Bool.false_eq_true, if_false] using hrecipes

end Cookbook
